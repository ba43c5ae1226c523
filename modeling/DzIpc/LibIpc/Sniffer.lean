import DzIpc.LibIpc.SnifferLog

/-!
# The sniffer returns whole messages

What `try_recv_one` returns for an inline or fragmented message is the message as long as, for
every slot it takes, the sniffer began no later than the first slot of the message, the copy was
over when the writer began to overwrite the slot, and no abandoned message has left fragments
under the message id.

* `SnifferOk` ties the copy under way and the fragments of the sniffer to the log;
  `take_logged` is its main step.
* `sniffedWhole_of_guarded` is the result for runs; `suffix_sniffed` is a sniffer that is opened
  between two fragments, and `torn_sniffed` one that is a whole ring behind.
-/

namespace DzIpc.LibIpc.SnifferSteps

open Cells

/-- What is returned for an inline or fragmented message is a published message. -/
def WholeMessages (s : State) : Prop :=
  ∀ b ∈ s.sniffer.returned, b.storage = false → b.bytes ∈ s.published

/-- The sniffer began no later than the first slot of the message this slot belongs to, and has
nothing of another message under its id. -/
def Sniffer.Follows (sn : Sniffer) (e : Pushed) : Prop :=
  sn.since + e.part ≤ sn.pos ∧ (e.part = 0 → sn.frags e.slot.id = none)

instance (sn : Sniffer) (e : Pushed) : Decidable (sn.Follows e) :=
  inferInstanceAs (Decidable (_ ∧ _))

/-- The condition on a step: lengths fit `int32_t`; a slot that is taken was not being
overwritten while it was copied, and what it says is in a chunk or follows what the sniffer
has. -/
def Careful (s : State) : Action → Prop
  | .writer a => a.Fits
  | .sniffer (.take _ _) =>
      match s.sniffer.pc with
      | .copying thisIdx _ _ late =>
          (s.wt - thisIdx).toNat ≤ ringSlots →
            late = false ∧ ∀ e ∈ s.log[s.sniffer.pos]?, e.payload ≠ none → s.sniffer.Follows e
      | _ => True
  | .sniffer _ => True

instance (s : State) (a : Action) : Decidable (Careful s a) := by
  unfold Careful
  split
  · infer_instance
  · split <;> infer_instance
  · infer_instance

variable {s t : State}

/-! ## What the sniffer has -/

/-- The sniffer, beside the ring of `s`: the copy under way, the fragments of the message it is
in the middle of, and what it has returned. -/
structure SnifferOk (s : State) (sn : Sniffer) : Prop where
  pos : sn.pos ≤ s.log.length
  since : sn.since ≤ sn.pos
  cur : sn.primed = true → sn.cur = BitVec.ofNat 32 sn.pos
  busy : sn.pc ≠ .idle → sn.primed = true
  copy : ∀ thisIdx msg left late, sn.pc = .copying thisIdx msg left late →
    thisIdx = BitVec.ofNat 32 sn.pos ∧ sn.pos < s.log.length ∧
      (late = false → ∀ e ∈ s.log[sn.pos]?, AgreeOff left msg e.slot)
  entries : sn.primed = true → ∀ e ∈ s.stream[sn.pos]?, 0 < e.part → sn.since + e.part ≤ sn.pos →
    ∃ payload c, e.payload = some payload ∧ sn.frags e.slot.id = some c ∧ EntryOk c payload e.part
  returned : ∀ b ∈ sn.returned, b.storage = false → b.bytes ∈ s.published

/-- The log grows, and where it ended there is nothing new but a first slot. -/
structure Grows (s t : State) : Prop where
  log : s.log <+: t.log
  stream : ∀ n ≤ s.log.length, ∀ e ∈ t.stream[n]?, 0 < e.part → e ∈ s.stream[n]?
  published : ∀ payload ∈ s.published, payload ∈ t.published

theorem SnifferOk.grow {sn : Sniffer} (h : SnifferOk s sn) (hgrows : Grows s t) :
    SnifferOk t sn where
  pos := Nat.le_trans h.pos hgrows.log.length_le
  since := h.since
  cur := h.cur
  busy := h.busy
  copy := by
    intro thisIdx msg left late hpc
    obtain ⟨hthis, hlt, hagree⟩ := h.copy thisIdx msg left late hpc
    refine ⟨hthis, Nat.lt_of_lt_of_le hlt hgrows.log.length_le, ?_⟩
    obtain ⟨rest, hrest⟩ := hgrows.log
    rw [← hrest, List.getElem?_append_left hlt]
    exact hagree
  entries := fun hprimed e he hpart =>
    h.entries hprimed e (hgrows.stream sn.pos h.pos e he hpart) hpart
  returned := fun b hb hinline => hgrows.published _ (h.returned b hb hinline)

theorem grows_moved {writer : WriterPc} {acc : BitVec 32}
    (hcurrent : ∀ e ∈ writer.current, e.part = 0 ∨ e ∈ s.writer.current) :
    Grows s { s with acc := acc, writer := writer } where
  log := List.prefix_refl _
  stream := by
    intro n _ e he hpart
    unfold State.stream at he ⊢
    rw [List.getElem?_append] at he ⊢
    split at he
    · rename_i hlt
      rw [if_pos hlt]
      exact he
    · rename_i hge
      rw [if_neg hge]
      have hmem := List.mem_of_getElem? he
      rcases hcurrent e (Option.mem_toList.mp hmem) with hfirst | hold
      · omega
      · have hsame : s.writer.current = writer.current := by
          rw [Option.mem_def.mp hold, Option.mem_def.mp (Option.mem_toList.mp hmem)]
        rw [hsame]
        exact he
  published := fun _ h => h

/-! ## The invariant -/

/-- **The invariant.** -/
structure Inv (s : State) : Prop where
  ring : RingOk s
  sniffer : SnifferOk s s.sniffer

theorem inv_init : Inv init where
  ring := ringOk_init
  sniffer :=
    { pos := Nat.le_refl 0
      since := Nat.le_refl 0
      cur := nofun
      busy := fun h => absurd rfl h
      copy := by
        intro thisIdx msg left late h
        cases h
      entries := nofun
      returned := nofun }

/-- A step of the writer keeps the ring in order, and the sniffer sees the log grow. -/
theorem inv_writerStep {a : WriterAction} (h : Inv s) (hcareful : Careful s (.writer a))
    (hstep : writerStep s a = some t) : Inv t := by
  suffices hring : RingOk t ∧ Grows s t ∧ t.sniffer = s.sniffer by
    obtain ⟨hring, hgrows, hsniffer⟩ := hring
    exact ⟨hring, hsniffer ▸ h.sniffer.grow hgrows⟩
  rcases writerStep_cases hstep with
    ⟨slots, payload, acc, hidle, hleft, rfl⟩ | ⟨payload, next, slot, rest, hsending, rfl⟩ |
    ⟨payload, next, slot, rest, cells, src, hwriting, rfl⟩ |
    ⟨payload, next, slot, rest, hwriting, hslot, rfl⟩ | ⟨payload, next, rest, hsending, rfl⟩
  · -- a message begins with its first slot
    have hfirst : ∀ e ∈ (WriterPc.sending payload 0 slots).current, e.part = 0 ∧ e.Ok := by
      intro e he
      obtain ⟨slot, hslot, rfl⟩ := Option.map_eq_some_iff.mp he
      obtain ⟨rest, rfl⟩ := List.head?_eq_some_iff.mp hslot
      exact ⟨rfl, (hleft hcareful).ok⟩
    refine ⟨h.ring.moved ?_ (fun e he => Or.inl (hfirst e he)) ?_,
      grows_moved fun e he => Or.inl (hfirst e he).1, rfl⟩
    · intro x hx
      obtain rfl := Option.some.inj hx
      exact hleft hcareful
    · intro n hn
      rw [State.begun, hidle]
      exact hn
  · have hleft : LeftOk payload next (slot :: rest) := h.ring.left ⟨payload, next, slot :: rest⟩ (by
      rw [hsending]
      rfl)
    have hsame : ∀ e ∈ (WriterPc.writing payload next slot rest).current,
        e ∈ s.writer.current := by
      intro e he
      rw [hsending]
      exact he
    refine ⟨h.ring.moved ?_ (fun e he => Or.inr (hsame e he)) ?_,
      grows_moved fun e he => Or.inr (hsame e he), rfl⟩
    · intro x hx
      obtain rfl := Option.some.inj hx
      exact hleft
    · intro n hn
      have hnot : ¬ n + ringSlots ≤ s.log.length := of_decide_eq_false hn
      rw [State.begun, hsending]
      exact decide_eq_false (by omega)
  · exact ⟨h.ring.write hwriting cells src, ⟨List.prefix_refl _, fun _ _ _ he _ => he,
      fun _ hp => hp⟩, rfl⟩
  · refine ⟨h.ring.advance hwriting hslot, ⟨List.prefix_append _ _, ?_, ?_⟩, rfl⟩
    · intro n hn e he _
      have hstream : s.stream = s.log ++ [⟨slot, payload, next⟩] := by
        rw [State.stream, hwriting]
        rfl
      rw [hstream]
      change ((s.log ++ [_]) ++ _)[n]? = some e at he
      rw [List.getElem?_append_left (by simp; omega)] at he
      exact he
    · intro bytes hbytes
      change bytes ∈ if rest = [] then s.published ++ payload.toList else s.published
      split
      · exact List.mem_append_left _ hbytes
      · exact hbytes
  · have hnone : ∀ e, e ∉ WriterPc.idle.current := by
      intro e he
      cases he
    refine ⟨h.ring.moved ?_ (fun e he => absurd he (hnone e)) ?_,
      grows_moved fun e he => absurd he (hnone e), rfl⟩
    · intro x hx
      cases hx
    · intro n hn
      rw [State.begun, hsending]
      exact hn

/-! ## The steps of the sniffer -/

variable {sn sn' : Sniffer}

/-- It has started afresh, or not yet. -/
theorem SnifferOk.restart (hpos : sn'.pos ≤ s.log.length) (hsince : sn'.since = sn'.pos)
    (hcur : sn'.cur = BitVec.ofNat 32 sn'.pos) (hprimed : sn'.primed = true)
    (hpc : ∀ thisIdx msg left late, sn'.pc ≠ .copying thisIdx msg left late)
    (hreturned : ∀ b ∈ sn'.returned, b.storage = false → b.bytes ∈ s.published) :
    SnifferOk s sn' where
  pos := hpos
  since := Nat.le_of_eq hsince
  cur := fun _ => hcur
  busy := fun _ => hprimed
  copy := fun thisIdx msg left late h => absurd h (hpc thisIdx msg left late)
  entries := by
    intro _ e _ hpart hle
    omega
  returned := hreturned

/-- It has not started. -/
theorem SnifferOk.stop (h : SnifferOk s sn) (hpos : sn'.pos = sn.pos) (hsince : sn'.since = sn.since)
    (hprimed : sn'.primed = false) (hpc : sn'.pc = .idle) (hreturned : sn'.returned = sn.returned) :
    SnifferOk s sn' where
  pos := hpos ▸ h.pos
  since := by
    rw [hpos, hsince]
    exact h.since
  cur := fun hyes => by
    rw [hprimed] at hyes
    cases hyes
  busy := fun hbusy => absurd hpc hbusy
  copy := by
    intro thisIdx msg left late hcopying
    rw [hpc] at hcopying
    cases hcopying
  entries := fun hyes => by
    rw [hprimed] at hyes
    cases hyes
  returned := hreturned ▸ h.returned

/-- It goes from one place in the code to another. -/
theorem SnifferOk.goTo (h : SnifferOk s sn) {pc : SnifferPc} (hprimed : sn.primed = true)
    (hpc : ∀ thisIdx msg left late, pc = .copying thisIdx msg left late →
      thisIdx = BitVec.ofNat 32 sn.pos ∧ sn.pos < s.log.length ∧
        (late = false → ∀ e ∈ s.log[sn.pos]?, AgreeOff left msg e.slot)) :
    SnifferOk s { sn with pc := pc } where
  pos := h.pos
  since := h.since
  cur := h.cur
  busy := fun _ => hprimed
  copy := hpc
  entries := h.entries
  returned := h.returned

theorem snifferOk_tryRecv (h : SnifferOk s s.sniffer) (hwt : s.wt = BitVec.ofNat 32 s.log.length)
    (hstep : snifferStep s .tryRecv = some sn') : SnifferOk s sn' := by
  unfold snifferStep at hstep
  dsimp only at hstep
  split at hstep
  · cases hstep
  split at hstep
  · obtain rfl := Option.some.inj hstep
    exact h
  split at hstep
  · obtain rfl := Option.some.inj hstep
    rename_i hpc _ _
    refine .restart (Nat.le_refl _) rfl hwt rfl ?_ h.returned
    intro thisIdx msg left late hcopying
    rw [not_not.mp hpc] at hcopying
    cases hcopying
  · rename_i hprimed
    split at hstep
    · obtain rfl := Option.some.inj hstep
      exact .restart (Nat.le_refl _) rfl hwt (not_not.mp hprimed) nofun h.returned
    · obtain rfl := Option.some.inj hstep
      exact h.goTo (not_not.mp hprimed) nofun

theorem snifferOk_loop (h : SnifferOk s s.sniffer) (hwt : s.wt = BitVec.ofNat 32 s.log.length)
    (hstep : snifferStep s .loop = some sn') : SnifferOk s sn' := by
  unfold snifferStep at hstep
  dsimp only at hstep
  split at hstep
  · rename_i hpc
    have hprimed : s.sniffer.primed = true := h.busy (by rw [hpc]; exact nofun)
    split at hstep
    · obtain rfl := Option.some.inj hstep
      exact h.goTo hprimed nofun
    · rename_i hne
      obtain rfl := Option.some.inj hstep
      refine h.goTo hprimed ?_
      intro thisIdx msg left late hcopying
      obtain ⟨rfl, rfl, rfl, rfl⟩ := SnifferPc.copying.inj hcopying
      refine ⟨h.cur hprimed, ?_, fun _ e _ => agreeOff_of_all mem_allCells _ _⟩
      refine Nat.lt_of_le_of_ne h.pos fun hend => hne ?_
      rw [h.cur hprimed, hwt, hend]
  · cases hstep

/-- As long as the writer has not begun to overwrite the slot, cells of the slot that was pushed
are copied. -/
theorem snifferOk_load (h : Inv s) {cells : List Cell}
    (hstep : snifferStep s (.load cells) = some sn') : SnifferOk s sn' := by
  unfold snifferStep at hstep
  dsimp only at hstep
  split at hstep
  · rename_i thisIdx msg left late hpc
    split at hstep
    · obtain rfl := Option.some.inj hstep
      obtain ⟨hthis, hlt, hagree⟩ := h.sniffer.copy thisIdx msg left late hpc
      have hbusy : s.sniffer.pc ≠ .idle := by
        rw [hpc]
        intro hidle
        cases hidle
      refine h.sniffer.goTo (h.sniffer.busy hbusy) ?_
      intro thisIdx' msg' left' late' hcopying
      obtain ⟨rfl, rfl, rfl, rfl⟩ := SnifferPc.copying.inj hcopying
      refine ⟨hthis, hlt, fun hearly e he => ?_⟩
      rw [Bool.or_eq_false_iff] at hearly
      have hslot : s.ring (indexOf thisIdx) = e.slot := by
        rw [hthis, indexOf_ofNat]
        exact h.ring.ring _ e he hearly.2
      rw [hslot]
      exact (hagree hearly.1 e he).copyCells cells
    · cases hstep
  · cases hstep

/-- A slot that was copied well is taken: a payload that is returned was published, and the
next fragment of the message, if this was not the last, finds what was there before it. -/
theorem take_logged (h : Inv s) {e : Pushed} (he : s.log[s.sniffer.pos]? = some e)
    (hprimed : s.sniffer.primed = true) (hfollows : e.payload ≠ none → s.sniffer.Follows e)
    (allocated : Bool) (fetched : Option (List UInt8)) :
    (∀ bytes, (takeSlot s.sniffer.frags e.slot allocated fetched).1 = .ret bytes →
        e.slot.storage = false → bytes ∈ s.published) ∧
      ∀ e' ∈ s.stream[s.sniffer.pos + 1]?, 0 < e'.part →
        s.sniffer.since + e'.part ≤ s.sniffer.pos + 1 →
        ∃ payload c, e'.payload = some payload ∧
          (takeSlot s.sniffer.frags e.slot allocated fetched).2 e'.slot.id = some c ∧
          EntryOk c payload e'.part := by
  have hstream := stream_of_log he
  have hok := h.ring.logged e (List.mem_of_getElem? hstream)
  cases hpayload : e.payload with
  | none =>
      rw [Pushed.Ok, hpayload] at hok
      obtain ⟨hstorage, -⟩ := hok
      refine ⟨fun _ _ hinline => ?_, fun e' he' hpart _ => ?_⟩
      · rw [hstorage] at hinline
        cases hinline
      · -- a chunk has one slot only
        obtain ⟨hsame, -, -⟩ := h.ring.behind hstream he' hpart
        have hok' := h.ring.logged e' (List.mem_of_getElem? he')
        rw [Pushed.Ok, hsame, hpayload] at hok'
        omega
  | some payload =>
      rw [Pushed.Ok, hpayload] at hok
      obtain ⟨hlen, hj, ccId, hslot⟩ := hok
      obtain ⟨hsince, hfresh⟩ := hfollows (by rw [hpayload]; exact nofun)
      have hbefore : 0 < e.part →
          ∃ c, s.sniffer.frags e.slot.id = some c ∧ EntryOk c payload e.part := by
        intro hpart
        obtain ⟨payload', c, hpayload', hc⟩ :=
          h.sniffer.entries hprimed e hstream hpart hsince
        obtain rfl := Option.some.inj (hpayload.symm.trans hpayload')
        exact ⟨c, hc⟩
      obtain ⟨hret, hnext⟩ := takeSlot_fragment ccId hlen hj hfresh hbefore allocated fetched
      rw [← hslot] at hret hnext
      refine ⟨fun bytes hbytes _ => ?_, fun e' he' hpart _ => ?_⟩
      · obtain ⟨rfl, hend⟩ := hret bytes hbytes
        exact h.ring.published e (List.mem_of_getElem? he) _ hpayload hend
      · obtain ⟨hsame, hnumber, hid⟩ := h.ring.behind hstream he' hpart
        have hok' := h.ring.logged e' (List.mem_of_getElem? he')
        rw [Pushed.Ok, hsame, hpayload] at hok'
        obtain ⟨-, hmore, -⟩ := hok'
        rw [hnumber] at hmore ⊢
        obtain ⟨c, hc, hc'⟩ := hnext hmore
        exact ⟨payload, c, hsame.trans hpayload, by rw [hid]; exact hc, hc'⟩

/-- The sniffer is one slot further. -/
theorem SnifferOk.took (h : SnifferOk s sn) (hprimed : sn.primed = true) (hlt : sn.pos < s.log.length)
    {frags : Frags} {pc : SnifferPc} {returned : List Buff}
    (hpc : ∀ thisIdx msg left late, pc ≠ .copying thisIdx msg left late)
    (hentries : ∀ e ∈ s.stream[sn.pos + 1]?, 0 < e.part → sn.since + e.part ≤ sn.pos + 1 →
      ∃ payload c, e.payload = some payload ∧ frags e.slot.id = some c ∧ EntryOk c payload e.part)
    (hreturned : ∀ b ∈ returned, b.storage = false → b.bytes ∈ s.published) :
    SnifferOk s { sn with
      cur := BitVec.ofNat 32 sn.pos + 1#32
      frags := frags
      pc := pc
      returned := returned
      pos := sn.pos + 1 } where
  pos := hlt
  since := Nat.le_succ_of_le h.since
  cur := fun _ => (BitVec.ofNat_add ..).symm
  busy := fun _ => hprimed
  copy := fun thisIdx msg left late hcopying => absurd hcopying (hpc thisIdx msg left late)
  entries := fun _ => hentries
  returned := hreturned

theorem snifferOk_take (h : Inv s) {allocated : Bool} {fetched : Option (List UInt8)}
    (hcareful : Careful s (.sniffer (.take allocated fetched)))
    (hstep : snifferStep s (.take allocated fetched) = some sn') : SnifferOk s sn' := by
  unfold snifferStep at hstep
  dsimp only at hstep
  split at hstep
  · rename_i thisIdx msg late hpc
    obtain ⟨hthis, hlt, hagree⟩ := h.sniffer.copy thisIdx msg [] late hpc
    have hprimed : s.sniffer.primed = true := h.sniffer.busy (by rw [hpc]; exact nofun)
    split at hstep
    · obtain rfl := Option.some.inj hstep
      refine .restart hlt rfl ?_ hprimed nofun h.sniffer.returned
      change thisIdx + 1#32 = BitVec.ofNat 32 (s.sniffer.pos + 1)
      rw [hthis, BitVec.ofNat_add]
    · rename_i hring
      rw [Careful, hpc] at hcareful
      obtain ⟨rfl, hfollows⟩ := hcareful (Nat.le_of_not_lt hring)
      have he : s.log[s.sniffer.pos]? = some s.log[s.sniffer.pos] := List.getElem?_eq_getElem hlt
      obtain rfl : msg = s.log[s.sniffer.pos].slot := (hagree rfl _ he).eq
      obtain ⟨hret, hentries⟩ := take_logged h he hprimed (hfollows _ he) allocated fetched
      split at hstep
      · rename_i frags htake
        obtain rfl := Option.some.inj hstep
        rw [htake] at hentries
        rw [hthis]
        exact h.sniffer.took hprimed hlt nofun hentries h.sniffer.returned
      · rename_i frags htake
        obtain rfl := Option.some.inj hstep
        rw [htake] at hentries
        rw [hthis]
        exact h.sniffer.took hprimed hlt nofun hentries h.sniffer.returned
      · rename_i bytes frags htake
        obtain rfl := Option.some.inj hstep
        rw [htake] at hentries hret
        rw [hthis]
        refine h.sniffer.took hprimed hlt nofun hentries fun b hb hinline => ?_
        rcases List.mem_cons.mp hb with rfl | hold
        · exact hret bytes rfl hinline
        · exact h.sniffer.returned b hold hinline
  · cases hstep

/-- **The step.** -/
theorem inv_step {a : Action} (h : Inv s) (hcareful : Careful s a) (hstep : step s a = some t) :
    Inv t := by
  cases a with
  | writer a => exact inv_writerStep h hcareful hstep
  | sniffer a =>
      obtain ⟨sn', hsn', rfl⟩ := Option.map_eq_some_iff.mp hstep
      have hring : RingOk { s with sniffer := sn' } :=
        ⟨h.ring.wt, h.ring.left, h.ring.logged, h.ring.chain, h.ring.published, h.ring.ring⟩
      suffices hsniffer : SnifferOk s sn' from
        ⟨hring, hsniffer.grow ⟨List.prefix_refl _, fun _ _ _ he _ => he, fun _ hp => hp⟩⟩
      cases a with
      | openRing =>
          unfold snifferStep at hsn'
          dsimp only at hsn'
          split_ifs at hsn' with hidle
          obtain rfl := Option.some.inj hsn'
          exact h.sniffer.stop rfl rfl rfl hidle rfl
      | closeRing =>
          unfold snifferStep at hsn'
          dsimp only at hsn'
          split_ifs at hsn' with hidle
          obtain rfl := Option.some.inj hsn'
          exact h.sniffer.stop rfl rfl rfl hidle rfl
      | skipToLatest =>
          unfold snifferStep at hsn'
          dsimp only at hsn'
          split_ifs at hsn' with hidle
          obtain rfl := Option.some.inj hsn'
          exact h.sniffer.stop rfl rfl rfl hidle rfl
      | tryRecv => exact snifferOk_tryRecv h.sniffer h.ring.wt hsn'
      | loop => exact snifferOk_loop h.sniffer h.ring.wt hsn'
      | load cells => exact snifferOk_load h hsn'
      | take allocated fetched => exact snifferOk_take h hcareful hsn'

/-- **Whole messages.**  In a run whose steps are careful, what the sniffer returns for an inline
or fragmented message is a published message. -/
theorem sniffedWhole_of_guarded {actions : List Action} {s : State}
    (hguarded : machine.Guarded Careful actions) (hrun : machine.run actions = some s) :
    WholeMessages s :=
  (machine.invariant_of_guarded inv_init (fun _ _ _ => inv_step) hguarded hrun).sniffer.returned

/-! ## Runs -/

instance (s : State) : Decidable (WholeMessages s) :=
  inferInstanceAs (Decidable (∀ b ∈ s.sniffer.returned, _))

/-- The steps of one push. -/
def pushSteps : List Action :=
  [.writer .begin, .writer (.store allCells), .writer .advance]

/-- The steps in which the sniffer takes one slot, with nobody in between. -/
def takeSteps : List Action :=
  [.sniffer .loop, .sniffer (.load allCells), .sniffer (.take true none)]

/-- A message of two fragments. -/
def twoFragments : List UInt8 := List.replicate 72 7

/-- The sniffer is opened before the message and takes both fragments. -/
def wholeSteps : List Action :=
  [.sniffer .openRing, .sniffer .tryRecv, .writer (.send 1#32 twoFragments)] ++ pushSteps ++
    pushSteps ++ [.sniffer .tryRecv] ++ takeSteps ++ takeSteps

/-- It returns the message. -/
theorem sniffedWhole_of_guarded_two : ∃ s, machine.run wholeSteps = some s ∧
    (s.sniffer.returned.map Buff.bytes = [twoFragments]) ∧ WholeMessages s := by
  have hrun : (machine.run wholeSteps).any (fun s =>
      decide (s.sniffer.returned.map Buff.bytes = [twoFragments])) = true := by
    decide +kernel
  obtain ⟨s, hs, hreturned⟩ := Machine.exists_of_any hrun
  have hguarded : machine.Guarded Careful wholeSteps := by
    decide +kernel
  exact ⟨s, hs, hreturned, sniffedWhole_of_guarded hguarded hs⟩

/-- The sniffer starts between the two fragments. -/
def suffixSteps : List Action :=
  [.sniffer .openRing, .writer (.send 1#32 twoFragments)] ++ pushSteps ++ [.sniffer .tryRecv] ++
    pushSteps ++ [.sniffer .tryRecv] ++ takeSteps

/-- It returns the second as a message. -/
theorem suffix_sniffed : ∃ s, machine.run suffixSteps = some s ∧
    s.published = [twoFragments] ∧
    s.sniffer.returned.map Buff.bytes = [List.replicate 8 7] ∧ ¬ WholeMessages s := by
  have hrun : (machine.run suffixSteps).any (fun s => decide (s.published = [twoFragments] ∧
      s.sniffer.returned.map Buff.bytes = [List.replicate 8 7] ∧ ¬ WholeMessages s)) = true := by
    decide +kernel
  exact Machine.exists_of_any hrun

/-! ## A copy that overlaps the writer -/

theorem copyCells_all (src dst : Slot) : copyCells allCells src dst = src :=
  Celled.ext _ _ fun c => by rw [get_copyCells, if_pos (mem_allCells c)]

/-- One push, unobserved. -/
theorem run_pushSteps {payload : Option (List UInt8)} {next : ℕ} {slot : Slot} {rest : List Slot}
    (hwriter : s.writer = .sending payload next (slot :: rest)) :
    machine.runFrom s pushSteps = some { s with
      ring := Function.update s.ring (indexOf s.wt) slot
      wt := s.wt + 1#32
      log := s.log ++ [⟨slot, payload, next⟩]
      writer := afterPush payload next rest
      published := if rest = [] then s.published ++ payload.toList else s.published } := by
  have hbegin : machine.step s (.writer .begin)
      = some { s with writer := .writing payload next slot rest } := by
    simp only [machine, step, writerStep, hwriter]
  have hstore : machine.step { s with writer := .writing payload next slot rest }
      (.writer (.store allCells)) = some { s with
        writer := .writing payload next slot rest
        ring := Function.update s.ring (indexOf s.wt) slot } := by
    simp only [machine, step, writerStep, State.write, copyCells_all]
  rw [pushSteps, Machine.runFrom_cons hbegin, Machine.runFrom_cons hstore]
  simp only [Machine.runFrom, machine, step, writerStep, Function.update_self, if_true]
  rfl

/-- The steps in which a message is published, one slot long. -/
def publishSteps (payload : List UInt8) : List Action :=
  .writer (.send 1#32 payload) :: pushSteps

/-- The writer has published messages, as far as the sniffer sees it. -/
structure Filled (s : State) (payloads : List (List UInt8)) (t : State) : Prop where
  writer : t.writer = .idle
  wt : t.wt = s.wt + BitVec.ofNat 32 payloads.length
  acc : t.acc = s.acc + BitVec.ofNat 32 payloads.length
  published : t.published = s.published ++ payloads
  sniffer : t.sniffer = s.sniffer

theorem run_publish (hidle : s.writer = .idle) :
    ∃ t, machine.runFrom s (publishSteps [0, 0]) = some t ∧ Filled s [[0, 0]] t := by
  have hsend : machine.step s (.writer (.send 1#32 [0, 0])) = some { s with
      acc := s.acc + 1#32
      writer := .sending (some [0, 0]) 0
        [.ofBytes 1#32 s.acc (BitVec.ofNat 32 2 - BitVec.ofNat 32 dataLength) [0, 0]] } := by
    simp only [machine, step, writerStep, hidle]
    rfl
  exact ⟨_, (Machine.runFrom_cons hsend).mpr (run_pushSteps rfl), ⟨rfl, rfl, rfl, rfl, rfl⟩⟩

/-- `n` messages. -/
def fillSteps (n : ℕ) : List Action :=
  (List.range n).flatMap fun _ => publishSteps [0, 0]

theorem run_fillSteps (hidle : s.writer = .idle) (n : ℕ) :
    ∃ t, machine.runFrom s (fillSteps n) = some t ∧ Filled s (List.replicate n [0, 0]) t := by
  induction n with
  | zero => exact ⟨s, rfl, hidle, by simp, by simp, by simp, rfl⟩
  | succ n ih =>
      obtain ⟨t, hrun, hfilled⟩ := ih
      obtain ⟨u, hrun', hfilled'⟩ := run_publish hfilled.writer
      have hsteps : fillSteps (n + 1) = fillSteps n ++ publishSteps [0, 0] := by
        simp [fillSteps, List.range_succ]
      refine ⟨u, ?_, hfilled'.writer, ?_, ?_, ?_, ?_⟩
      · rw [hsteps]
        exact (Machine.runFrom_append _ _).mpr ⟨t, hrun, hrun'⟩
      · rw [hfilled'.wt, hfilled.wt, BitVec.add_assoc, ← BitVec.ofNat_add]
        simp
      · rw [hfilled'.acc, hfilled.acc, BitVec.add_assoc, ← BitVec.ofNat_add]
        simp
      · rw [hfilled'.published, hfilled.published, List.append_assoc, List.replicate_succ']
      · rw [hfilled'.sniffer, hfilled.sniffer]

/-- What the sniffer copies of the first slot before it is interrupted. -/
def earlyCells : List Cell := [.ccId, .id, .remain, .storage, .byte ⟨0, by decide⟩]

/-- What it copies afterwards. -/
def lateCells : List Cell := allCells.filter fun c => c ∉ earlyCells

/-- The slot of a message of two equal bytes. -/
def pairSlot (id : BitVec 32) (b : UInt8) : Slot :=
  .ofBytes 1#32 id (BitVec.ofNat 32 2 - BitVec.ofNat 32 dataLength) [b, b]

/-- The beginning of the first slot. -/
def earlyCopy : Slot := copyCells earlyCells (pairSlot 0#32 1) .blank

/-- The beginning of the first slot, and the end of the slot one lap later. -/
def tornCopy : Slot := copyCells lateCells (pairSlot 256#32 2) earlyCopy

/-- The sniffer begins to copy the first slot. -/
def beforeSteps : List Action :=
  [.sniffer .openRing, .sniffer .tryRecv] ++ publishSteps [1, 1] ++
    [.sniffer .tryRecv, .sniffer .loop, .sniffer (.load earlyCells)]

/-- The writer writes the slot again, and the sniffer goes on. -/
def afterSteps : List Action :=
  [.writer (.send 1#32 [2, 2]), .writer .begin, .writer (.store allCells),
    .sniffer (.load lateCells), .sniffer (.take true none)]

theorem run_beforeSteps : ∃ s, machine.run beforeSteps = some s ∧ s.writer = .idle ∧
    s.wt = 1#32 ∧ s.acc = 1#32 ∧ s.published = [[1, 1]] ∧
    s.sniffer.pc = .copying 0#32 earlyCopy lateCells false ∧ s.sniffer.frags 0#32 = none := by
  have hrun : (machine.run beforeSteps).any (fun s => decide (s.writer = .idle ∧ s.wt = 1#32 ∧
      s.acc = 1#32 ∧ s.published = [[1, 1]] ∧
      s.sniffer.pc = .copying 0#32 earlyCopy lateCells false ∧ s.sniffer.frags 0#32 = none))
        = true := by
    decide +kernel
  exact Machine.exists_of_any hrun

/-- A torn copy looks like a message. -/
theorem takeSlot_tornCopy {frags : Frags} (hfrags : frags 0#32 = none) :
    takeSlot frags tornCopy true none = (.ret [1, 2], frags) := by
  have hsize : (BitVec.ofNat 32 dataLength + tornCopy.remain).toInt = 2 := by
    decide +kernel
  have hinline : tornCopy.storage = false := by
    decide +kernel
  have hid : tornCopy.id = 0#32 := by
    decide +kernel
  have hdata : tornCopy.data.take 2 = [1, 2] := by
    decide +kernel
  unfold takeSlot
  rw [hsize, hinline, hid]
  simp only [hfrags]
  change (Outcome.ret (tornCopy.data.take 2), frags) = _
  rw [hdata]

/-- The rest of the slot is copied, and the copy is taken. -/
theorem run_finish {thisIdx : U2} {msg : Slot} {left : List Cell} {late : Bool}
    (hpc : s.sniffer.pc = .copying thisIdx msg left late)
    (hlag : ¬ (s.wt - thisIdx).toNat > ringSlots) {bytes : List UInt8} {frags : Frags}
    (htake : takeSlot s.sniffer.frags (copyCells left (s.ring (indexOf thisIdx)) msg) true none
      = (.ret bytes, frags)) :
    ∃ t, machine.runFrom s [.sniffer (.load left), .sniffer (.take true none)] = some t ∧
      t.published = s.published ∧ ∃ b ∈ t.sniffer.returned,
        b.storage = (copyCells left (s.ring (indexOf thisIdx)) msg).storage ∧ b.bytes = bytes := by
  have hdone : (left.filter fun c => c ∉ left) = [] := by
    simp
  have hload : snifferStep s (.load left) = some { s.sniffer with
      pc := .copying thisIdx (copyCells left (s.ring (indexOf thisIdx)) msg) []
        (late || s.begun s.sniffer.pos) } := by
    simp only [snifferStep, hpc]
    rw [if_pos fun _ hc => hc, hdone]
  generalize copyCells left (s.ring (indexOf thisIdx)) msg = copied at hload htake ⊢
  have hret : snifferStep { s with sniffer := { s.sniffer with
        pc := .copying thisIdx copied [] (late || s.begun s.sniffer.pos) } } (.take true none)
      = some { s.sniffer with
        cur := thisIdx + 1#32
        pos := s.sniffer.pos + 1
        frags := frags
        pc := .idle
        returned := ⟨bytes, copied.ccId, copied.id, s.sniffer.dropped, copied.storage⟩ ::
          s.sniffer.returned } := by
    simp only [snifferStep]
    rw [if_neg hlag, htake]
  have hrun : machine.runFrom s [.sniffer (.load left), .sniffer (.take true none)]
      = some { s with sniffer := { s.sniffer with
        cur := thisIdx + 1#32
        pos := s.sniffer.pos + 1
        frags := frags
        pc := .idle
        returned := ⟨bytes, copied.ccId, copied.id, s.sniffer.dropped, copied.storage⟩ ::
          s.sniffer.returned } } := by
    simp only [Machine.runFrom, machine, step, hload, hret, Option.map_some]
  exact ⟨_, hrun, rfl, _, List.mem_cons_self, rfl, rfl⟩

/-- Both bytes of the slot are overwritten while the sniffer copies it. -/
theorem run_afterSteps (hidle : s.writer = .idle) (hwt : s.wt = 256#32) (hacc : s.acc = 256#32)
    (hpc : s.sniffer.pc = .copying 0#32 earlyCopy lateCells false)
    (hfrags : s.sniffer.frags 0#32 = none) :
    ∃ t, machine.runFrom s afterSteps = some t ∧ t.published = s.published ∧
      ∃ b ∈ t.sniffer.returned, b.storage = false ∧ b.bytes = [1, 2] := by
  have hslots : slotsOf 1#32 s.acc [2, 2] = [pairSlot 256#32 2] := by
    rw [hacc]
    rfl
  have hsend : machine.step s (.writer (.send 1#32 [2, 2])) = some { s with
      acc := s.acc + 1#32
      writer := .sending (some [2, 2]) 0 [pairSlot 256#32 2] } := by
    simp only [machine, step, writerStep, hidle, hslots]
    rfl
  have hwrite : machine.runFrom { s with
        acc := s.acc + 1#32
        writer := .sending (some [2, 2]) 0 [pairSlot 256#32 2] }
      [.writer .begin, .writer (.store allCells)] = some { s with
        acc := s.acc + 1#32
        writer := .writing (some [2, 2]) 0 (pairSlot 256#32 2) []
        ring := Function.update s.ring (indexOf s.wt) (pairSlot 256#32 2) } := by
    simp only [Machine.runFrom, machine, step, writerStep, State.write, copyCells_all]
  have hring : Function.update s.ring (indexOf s.wt) (pairSlot 256#32 2) (indexOf 0#32)
      = pairSlot 256#32 2 := by
    rw [hwt]
    exact Function.update_self ..
  have hlag : ¬ (s.wt - 0#32).toNat > ringSlots := by
    rw [hwt]
    decide
  have htake : takeSlot s.sniffer.frags (copyCells lateCells
      (Function.update s.ring (indexOf s.wt) (pairSlot 256#32 2) (indexOf 0#32)) earlyCopy) true none
        = (.ret [1, 2], s.sniffer.frags) := by
    rw [hring]
    exact takeSlot_tornCopy hfrags
  have hinline : (copyCells lateCells
      (Function.update s.ring (indexOf s.wt) (pairSlot 256#32 2) (indexOf 0#32)) earlyCopy).storage
        = false := by
    rw [hring]
    decide +kernel
  obtain ⟨t, hrun, hpub, b, hb, hstorage, hbytes⟩ := run_finish (s := { s with
        acc := s.acc + 1#32
        writer := .writing (some [2, 2]) 0 (pairSlot 256#32 2) []
        ring := Function.update s.ring (indexOf s.wt) (pairSlot 256#32 2) }) hpc hlag htake
  refine ⟨t, (Machine.runFrom_cons hsend).mpr ?_, hpub, b, hb, hstorage.trans hinline, hbytes⟩
  exact (Machine.runFrom_append [.writer .begin, .writer (.store allCells)] _).mpr
    ⟨_, hwrite, hrun⟩

/-- A whole ring behind: the writer publishes 255 messages of one slot and begins the next
while the sniffer copies the first. -/
def tornSteps : List Action :=
  beforeSteps ++ (fillSteps 255 ++ afterSteps)

/-- **A torn copy is returned**, one byte of one message and one of another: the write index is
256 ahead, and 256 is not more than the ring holds. -/
theorem torn_sniffed : ∃ s, machine.run tornSteps = some s ∧
    s.published = [1, 1] :: List.replicate 255 [0, 0] ∧
    (∃ b ∈ s.sniffer.returned, b.storage = false ∧ b.bytes = [1, 2]) ∧ ¬ WholeMessages s := by
  obtain ⟨s, hbefore, hidle, hwt, hacc, hpub, hpc, hfrags⟩ := run_beforeSteps
  obtain ⟨t, hfill, hfilled⟩ := run_fillSteps hidle 255
  have htwt : t.wt = 256#32 := by
    rw [hfilled.wt, hwt, List.length_replicate]
    rfl
  have htacc : t.acc = 256#32 := by
    rw [hfilled.acc, hacc, List.length_replicate]
    rfl
  obtain ⟨u, hafter, hupub, b, hb, hinline, hbytes⟩ := run_afterSteps hfilled.writer htwt htacc
    (hfilled.sniffer ▸ hpc) (hfilled.sniffer ▸ hfrags)
  have hpublished : u.published = [1, 1] :: List.replicate 255 [0, 0] := by
    rw [hupub, hfilled.published, hpub]
    rfl
  refine ⟨u, ?_, hpublished, ⟨b, hb, hinline, hbytes⟩, fun hwhole => ?_⟩
  · exact (Machine.runFrom_append _ _).mpr
      ⟨s, hbefore, (Machine.runFrom_append _ _).mpr ⟨t, hfill, hafter⟩⟩
  · have hmem := hwhole b hb hinline
    rw [hbytes, hpublished, List.mem_cons, List.mem_replicate] at hmem
    rcases hmem with h | ⟨-, h⟩
    · exact absurd h (by decide)
    · exact absurd h (by decide)

end DzIpc.LibIpc.SnifferSteps
