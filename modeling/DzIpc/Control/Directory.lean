import DzIpc.Control.InfoPool

/-!
# The info pool as a directory

* `Inv` says which registration each entry in use belongs to, whatever processes have died in
  whichever section; `effects_spare` that no call writes to the entry of another live process.
* `appears_iff`: in a snapshot a live registration appears once, with its kind, domain and name,
  exactly if the name fits into the array.
* `faithful_iff` is the result for one call, `directory_iff` the result for runs.
-/

namespace DzIpc.Control.InfoPool

/-! ## Names -/

/-- A name that its array can hold. -/
def Fits (name : List UInt8) : Prop :=
  name.length < kMaxTopicName ∧ 0 ∉ name

instance : DecidablePred Fits := fun _ => inferInstanceAs (Decidable (_ ∧ _))

/-- What is left of a name in its array. -/
def truncated (name : List UInt8) : List UInt8 :=
  cString (name.take (kMaxTopicName - 1))

theorem cString_cons (c : UInt8) (chars : List UInt8) :
    cString (c :: chars) = if c = 0 then [] else c :: cString chars := by
  by_cases hc : c = 0 <;> simp [cString, hc]

theorem cString_append_zero (chars rest : List UInt8) :
    cString (chars ++ 0 :: rest) = cString chars := by
  induction chars with
  | nil => simp [cString]
  | cons c chars ih => rw [List.cons_append, cString_cons, cString_cons, ih]

theorem cString_eq_self_iff (chars : List UInt8) : cString chars = chars ↔ 0 ∉ chars := by
  induction chars with
  | nil => simp [cString]
  | cons c chars ih =>
      rw [cString_cons]
      by_cases hc : c = 0
      · simp [hc]
      · simp [hc, ih, Ne.symm hc]

theorem truncated_eq_self_iff (name : List UInt8) : truncated name = name ↔ Fits name := by
  have hle : (truncated name).length ≤ kMaxTopicName - 1 := by
    unfold truncated cString
    exact Nat.le_trans (List.takeWhile_prefix _).length_le (List.length_take_le _ _)
  constructor
  · intro heq
    have hlen : name.length ≤ kMaxTopicName - 1 := by rwa [heq] at hle
    unfold truncated at heq
    rw [List.take_of_length_le hlen] at heq
    exact ⟨Nat.lt_of_le_of_lt hlen (by decide), (cString_eq_self_iff name).mp heq⟩
  · intro hfits
    unfold truncated
    rw [List.take_of_length_le (Nat.le_sub_one_of_lt hfits.1)]
    exact (cString_eq_self_iff name).mpr hfits.2

/-! ## Entries -/

/-- The entry is that of a registration. -/
structure Written (g : Reg) (e : PoolEntry) : Prop where
  inUse : e.inUse = true
  pid : e.pid = g.pid
  kind : e.kind = g.info.kind
  domainId : e.domainId = g.info.domainId
  topicName : cString e.topicName = truncated g.info.topicName

theorem written_registerStores (slot pid now : ℕ) (info : RegisterInfo) (e : PoolEntry) :
    Written ⟨slot, pid, info⟩ ((registerStores pid now info).foldl (fun e f => f e) e) where
  inUse := rfl
  pid := rfl
  kind := rfl
  domainId := rfl
  topicName := by
    have hmin : info.topicName.take (min info.topicName.length (kMaxTopicName - 1))
        = info.topicName.take (kMaxTopicName - 1) := by
      rw [Nat.min_comm, ← List.take_take, List.take_length]
    have hlen : (info.topicName.take (min info.topicName.length (kMaxTopicName - 1))).length
        = min info.topicName.length (kMaxTopicName - 1) :=
      List.length_take_of_le (Nat.min_le_left _ _)
    simp only [registerStores, copyTruncate, List.map_cons, List.map_nil, List.cons_append,
      List.nil_append, List.foldl_cons, List.foldl_nil]
    rw [cString_append_zero, List.take_left' hlen, hmin]
    rfl

/-- A store of `register_entry` leaves the owner or enters the caller. -/
theorem pid_registerStores {pid now : ℕ} {info : RegisterInfo} {f : Store}
    (hf : f ∈ registerStores pid now info) (e : PoolEntry) :
    (f e).pid = e.pid ∨ (f e).pid = pid := by
  simp only [registerStores, copyTruncate, List.map_cons, List.map_nil, List.cons_append,
    List.nil_append, List.mem_cons, List.not_mem_nil, or_false] at hf
  rcases hf with rfl | rfl | rfl | rfl | rfl | rfl | rfl | rfl | rfl | rfl | rfl | rfl <;> simp

/-- A store that gives an entry up leaves the owner or removes it. -/
theorem pid_clearStores {f : Store} (hf : f ∈ clearStores) (e : PoolEntry) :
    (f e).pid = e.pid ∨ (f e).pid = 0 := by
  simp only [clearStores, List.mem_cons, List.not_mem_nil, or_false] at hf
  rcases hf with rfl | rfl | rfl | rfl | rfl | rfl | rfl | rfl | rfl <;> simp

/-! ## The stores of a call -/

variable {s t : State} {p : ℕ} {c : Call} {deaths : List ℕ} {answer : ℕ → Bool} {cut : Option ℕ}
  {g : Reg} {i : ℕ}

theorem freeSlot_spec {entries : Entries} (h : freeSlot entries = some i) :
    i < kMaxEntries ∧ (entries i).inUse = false := by
  have hmem := List.mem_of_find?_eq_some h
  have hfree := List.find?_some h
  exact ⟨List.mem_range.mp hmem, by simpa using hfree⟩

theorem freeSlot_eq_none_iff {entries : Entries} :
    freeSlot entries = none ↔ ∀ i < kMaxEntries, (entries i).inUse = true := by
  simp [freeSlot]

/-- Who is alive after a call. -/
theorem pidAlive_mourn {pid : ℕ} : (s.mourn p deaths cut).pidAlive pid = true ↔
    s.pidAlive pid = true ∧ pid ∉ deaths ∧ (cut = none ∨ pid ≠ p) := by
  simp [State.mourn, State.pidAlive, Option.isNone_iff_eq_none, and_assoc]

/-- `pid_alive` answers true for the entry of who is alive after the call. -/
theorem aliveDuring_of_mourn (h : (s.mourn p deaths cut).pidAlive (s.entries i).pid = true) :
    s.aliveDuring deaths answer i = true := by
  obtain ⟨halive, hstays, -⟩ := pidAlive_mourn.mp h
  simp [State.aliveDuring, halive, hstays]

theorem mem_reclaimed {entries : Entries} {alive : ℕ → Bool} (h : i ∈ reclaimed entries alive) :
    (entries i).inUse = true ∧ alive i = false := by
  have hkept := (List.mem_filter.mp h).2
  simpa using hkept

/-- The stores that reclaim entries. -/
theorem mem_reclaim {entries : Entries} {alive : ℕ → Bool} {w : Write ℕ PoolEntry}
    (h : w ∈ (reclaimed entries alive).flatMap fun i => Write.all i clearStores) :
    w.index ∈ reclaimed entries alive ∧ w.store ∈ clearStores := by
  obtain ⟨i, hi, hw⟩ := List.mem_flatMap.mp h
  obtain ⟨hindex, hstore⟩ := Write.mem_all hw
  exact ⟨hindex ▸ hi, hstore⟩

theorem mem_writes_register {entries : Entries} {alive : ℕ → Bool} {info : RegisterInfo} {now : ℕ}
    {w : Write ℕ PoolEntry} (h : w ∈ writes entries alive p (.register info now)) :
    ∃ i, freeSlot entries = some i ∧ w.index = i ∧ w.store ∈ registerStores p now info := by
  unfold writes at h
  cases hfree : freeSlot entries with
  | none =>
      rw [hfree] at h
      cases h
  | some i =>
      rw [hfree] at h
      exact ⟨i, rfl, Write.mem_all h⟩

theorem mem_writes_unregister {entries : Entries} {alive : ℕ → Bool} {slot : ℕ}
    {w : Write ℕ PoolEntry} (h : w ∈ writes entries alive p (.unregister slot)) :
    w.index = slot ∧ w.store ∈ clearStores := by
  change w ∈ if slot < kMaxEntries ∧ (entries slot).inUse = true then Write.all slot clearStores
    else [] at h
  split at h
  · exact Write.mem_all h
  · cases h

theorem writes_reclaim (entries : Entries) (alive : ℕ → Bool) (p : ℕ) {c : Call}
    (hc : c = .snapshot true ∨ c = .gcDead) : writes entries alive p c =
      (reclaimed entries alive).flatMap fun i => Write.all i clearStores := by
  rcases hc with rfl | rfl <;> rfl

/-- The stores that are made. -/
theorem entriesAfter_other
    (h : ∀ w ∈ writes s.entries (s.aliveDuring deaths answer) p c, w.index ≠ i) :
    s.entriesAfter p c deaths answer cut i = s.entries i := by
  unfold State.entriesAfter
  split
  · cases cut with
    | none => exact Write.apply_other h
    | some k => exact Write.apply_other fun w hw => h w (List.mem_of_mem_take hw)
  · rfl

/-- What all stores to an entry keep. -/
theorem entriesAfter_induct {P : PoolEntry → Prop}
    (hstore : ∀ w ∈ writes s.entries (s.aliveDuring deaths answer) p c, w.index = i →
      ∀ e, P e → P (w.store e))
    (h : P (s.entries i)) : P (s.entriesAfter p c deaths answer cut i) := by
  unfold State.entriesAfter
  split
  · cases cut with
    | none => exact Write.apply_induct hstore h
    | some k => exact Write.apply_induct (fun w hw => hstore w (List.mem_of_mem_take hw)) h
  · exact h

/-! ## The invariant -/

/-- What every run keeps, whoever has died where. -/
structure Inv (s : State) : Prop where
  /-- A live registration has its entry. -/
  written : ∀ g ∈ s.regs, s.pidAlive g.pid = true →
    g.slot < kMaxEntries ∧ Written g (s.entries g.slot)
  /-- An entry in use whose process is alive is that of a registration. -/
  owned : ∀ i < kMaxEntries, (s.entries i).inUse = true → s.pidAlive (s.entries i).pid = true →
    ∃ g ∈ s.regs, g.slot = i ∧ g.pid = (s.entries i).pid
  /-- Nobody has used the pool before it is ready. -/
  pool : s.initState ≠ .ready → s.regs = [] ∧ ∀ p, s.impl p ≠ some true

/-- Who may unregister owns the entry. -/
theorem owner_of_mayCall (h : Inv s) {slot : ℕ} (hmay : s.mayCall p (.unregister slot) = true) :
    s.pidAlive p = true ∧ ∃ g ∈ s.regs, g.slot = slot ∧ g.pid = p ∧ (s.entries slot).pid = p := by
  simp only [State.mayCall, Bool.and_eq_true, List.any_eq_true, decide_eq_true_eq] at hmay
  obtain ⟨⟨halive, -⟩, g, hg, rfl, rfl⟩ := hmay
  exact ⟨halive, g, hg, rfl, rfl, (h.written g hg halive).2.pid⟩

/-- **No call writes to the entry of a live process**, except to that of the caller which it
unregisters. -/
theorem writes_spare (h : Inv s) (hmay : s.mayCall p c = true) (hg : g ∈ s.regs)
    (halive : (s.mourn p deaths cut).pidAlive g.pid = true)
    (hkept : c = .unregister g.slot → g.pid ≠ p) :
    ∀ w ∈ writes s.entries (s.aliveDuring deaths answer) p c, w.index ≠ g.slot := by
  obtain ⟨-, hwritten⟩ := h.written g hg (pidAlive_mourn.mp halive).1
  have hreclaim : ∀ w ∈ (reclaimed s.entries (s.aliveDuring deaths answer)).flatMap
      fun i => Write.all i clearStores, w.index ≠ g.slot := by
    intro w hw heq
    obtain ⟨-, hdead⟩ := mem_reclaimed (mem_reclaim hw).1
    rw [heq] at hdead
    have hlives : s.aliveDuring deaths answer g.slot = true :=
      aliveDuring_of_mourn (hwritten.pid ▸ halive)
    rw [hlives] at hdead
    cases hdead
  intro w hw heq
  cases c with
  | register info now =>
      obtain ⟨j, hfree, hindex, -⟩ := mem_writes_register hw
      have hunused := (freeSlot_spec hfree).2
      rw [← hindex, heq, hwritten.inUse] at hunused
      cases hunused
  | unregister slot =>
      obtain ⟨hindex, -⟩ := mem_writes_unregister hw
      obtain rfl : slot = g.slot := hindex.symm.trans heq
      obtain ⟨-, g', -, -, -, hpid⟩ := owner_of_mayCall h hmay
      exact hkept rfl (hwritten.pid.symm.trans hpid)
  | snapshot gc =>
      cases gc with
      | false => cases hw
      | true => exact hreclaim w hw heq
  | gcDead => exact hreclaim w hw heq

/-- An entry whose live owner has not unregistered it is as before. -/
theorem entriesAfter_spare (h : Inv s) (hmay : s.mayCall p c = true) (hg : g ∈ s.regs)
    (halive : (s.mourn p deaths cut).pidAlive g.pid = true)
    (hkept : c = .unregister g.slot → g.pid ≠ p) :
    s.entriesAfter p c deaths answer cut g.slot = s.entries g.slot :=
  entriesAfter_other (writes_spare h hmay hg halive hkept)

/-- The registrations after a call are those before, and a new one. -/
theorem mem_regsAfter (hg : g ∈ s.regsAfter p cut c) :
    (g ∈ s.regs ∧ (s.impl p = some true → c = .unregister g.slot → g.pid ≠ p)) ∨
      ∃ now, c = .register g.info now ∧ cut = none ∧ g.pid = p ∧ s.registerBy p = some g.slot := by
  cases c with
  | register info now =>
      unfold State.regsAfter at hg
      dsimp only at hg
      split at hg
      · rename_i i hslot
        rcases List.mem_cons.mp hg with rfl | hold
        · exact Or.inr ⟨now, rfl, rfl, rfl, hslot⟩
        · exact Or.inl ⟨hold, fun _ h => nomatch h⟩
      · exact Or.inl ⟨hg, fun _ h => nomatch h⟩
  | unregister slot =>
      unfold State.regsAfter at hg
      dsimp only at hg
      split at hg
      · have hmem := List.mem_filter.mp hg
        have hnot : ¬ (g.slot = slot ∧ g.pid = p) := of_decide_eq_true hmem.2
        refine Or.inl ⟨hmem.1, fun _ heq hpid => hnot ⟨?_, hpid⟩⟩
        cases heq
        rfl
      · rename_i hready
        exact Or.inl ⟨hg, fun h => absurd h hready⟩
  | snapshot gc => exact Or.inl ⟨hg, fun _ h => nomatch h⟩
  | gcDead => exact Or.inl ⟨hg, fun _ h => nomatch h⟩

/-- A registration stays unless its owner unregisters it. -/
theorem mem_regsAfter_of_ne (hg : g ∈ s.regs) (hkept : c = .unregister g.slot → g.pid ≠ p) :
    g ∈ s.regsAfter p cut c := by
  cases c with
  | register info now =>
      unfold State.regsAfter
      dsimp only
      split
      · exact List.mem_cons_of_mem _ hg
      · exact hg
  | unregister slot =>
      unfold State.regsAfter
      dsimp only
      split
      · refine List.mem_filter.mpr ⟨hg, decide_eq_true fun h => ?_⟩
        exact hkept (by rw [h.1]) h.2
      · exact hg
  | snapshot gc => exact hg
  | gcDead => exact hg

/-- The entry of a registration that has returned its slot. -/
theorem entriesAfter_register {info : RegisterInfo} {now : ℕ} (hslot : s.registerBy p = some i) :
    i < kMaxEntries ∧ Written ⟨i, p, info⟩
      (s.entriesAfter p (.register info now) deaths answer none i) := by
  unfold State.registerBy at hslot
  split at hslot
  · rename_i hready
    refine ⟨(freeSlot_spec hslot).1, ?_⟩
    have hwrites : writes s.entries (s.aliveDuring deaths answer) p (.register info now)
        = Write.all i (registerStores p now info) := by
      unfold writes
      rw [hslot]
    unfold State.entriesAfter
    rw [if_pos hready]
    dsimp only
    rw [hwrites, Write.apply_at]
    exact written_registerStores i p now info _
  · cases hslot

/-- A caller that dies while it registers has left the entry free, or entered itself. -/
theorem entriesAfter_register_cut {info : RegisterInfo} {now k : ℕ}
    (hfree : freeSlot s.entries = some i) :
    (s.entriesAfter p (.register info now) deaths answer (some k) i).inUse = false ∨
      (s.entriesAfter p (.register info now) deaths answer (some k) i).pid = p := by
  have hunused := (freeSlot_spec hfree).2
  have hwrites : writes s.entries (s.aliveDuring deaths answer) p (.register info now)
      = Write.all i (registerStores p now info) := by
    unfold writes
    rw [hfree]
  unfold State.entriesAfter
  split
  · dsimp only
    rw [hwrites]
    cases k with
    | zero => exact Or.inl hunused
    | succ k =>
        right
        -- the first store enters the caller
        have hfirst : (Write.all i (registerStores p now info)).take (k + 1)
            = { index := i, store := fun e => { e with pid := p } } ::
              (Write.all i ((registerStores p now info).drop 1)).take k := rfl
        rw [hfirst, Write.apply]
        apply Write.apply_induct (P := fun e : PoolEntry => e.pid = p)
        · intro w hw _ e he
          have hstore := (Write.mem_all (List.mem_of_mem_take hw)).2
          rcases pid_registerStores (List.mem_of_mem_drop hstore) e with h | h
          · exact h.trans he
          · exact h
        · rw [Function.update_self]
  · exact Or.inl hunused

/-- An entry that is given up has lost its owner, or still has it. -/
theorem pid_entriesAfter_clear
    (hclear : ∀ w ∈ writes s.entries (s.aliveDuring deaths answer) p c, w.index = i →
      w.store ∈ clearStores) :
    (s.entriesAfter p c deaths answer cut i).pid = (s.entries i).pid ∨
      (s.entriesAfter p c deaths answer cut i).pid = 0 := by
  apply entriesAfter_induct (P := fun e => e.pid = (s.entries i).pid ∨ e.pid = 0)
  · intro w hw hi e he
    rcases pid_clearStores (hclear w hw hi) e with h | h
    · rw [h]
      exact he
    · exact Or.inr h
  · exact Or.inl rfl

/-- A live registration has its entry after a call. -/
theorem written_call (h : Inv s) (hmay : s.mayCall p c = true) (hg : g ∈ s.regsAfter p cut c)
    (halive : (s.mourn p deaths cut).pidAlive g.pid = true) :
    g.slot < kMaxEntries ∧ Written g (s.entriesAfter p c deaths answer cut g.slot) := by
  rcases mem_regsAfter hg with ⟨hold, hkept⟩ | ⟨now, rfl, rfl, rfl, hslot⟩
  · obtain ⟨hlt, hwritten⟩ := h.written g hold (pidAlive_mourn.mp halive).1
    by_cases hready : s.impl p = some true
    · rw [entriesAfter_spare h hmay hold halive (hkept hready)]
      exact ⟨hlt, hwritten⟩
    · rw [State.entriesAfter, if_neg hready]
      exact ⟨hlt, hwritten⟩
  · exact entriesAfter_register hslot

/-- An entry that no store of a call is for has its registration after the call. -/
theorem owned_of_other (h : Inv s) (hi : i < kMaxEntries)
    (hother : ∀ w ∈ writes s.entries (s.aliveDuring deaths answer) p c, w.index ≠ i)
    (huse : (s.entriesAfter p c deaths answer cut i).inUse = true)
    (halive : (s.mourn p deaths cut).pidAlive (s.entriesAfter p c deaths answer cut i).pid = true) :
    ∃ g ∈ s.regsAfter p cut c, g.slot = i ∧
      g.pid = (s.entriesAfter p c deaths answer cut i).pid := by
  rw [entriesAfter_other hother] at huse halive ⊢
  obtain ⟨g, hg, rfl, hpid⟩ := h.owned i hi huse (pidAlive_mourn.mp halive).1
  refine ⟨g, mem_regsAfter_of_ne hg fun hc => ?_, rfl, hpid⟩
  -- to unregister it there is a store to make
  have hfirst : ({ index := g.slot, store := fun e => { e with pid := 0 } } : Write ℕ PoolEntry) ∈
      writes s.entries (s.aliveDuring deaths answer) p (.unregister g.slot) := by
    change _ ∈ if g.slot < kMaxEntries ∧ (s.entries g.slot).inUse = true then _ else _
    rw [if_pos ⟨hi, huse⟩]
    exact List.mem_cons_self
  rw [← hc] at hfirst
  exact absurd rfl (hother _ hfirst)

/-- An entry in use whose process is alive is that of a registration after a call. -/
theorem owned_call (h : Inv s) (hmay : s.mayCall p c = true) (hi : i < kMaxEntries)
    (huse : (s.entriesAfter p c deaths answer cut i).inUse = true)
    (halive : (s.mourn p deaths cut).pidAlive (s.entriesAfter p c deaths answer cut i).pid = true) :
    ∃ g ∈ s.regsAfter p cut c, g.slot = i ∧
      g.pid = (s.entriesAfter p c deaths answer cut i).pid := by
  by_cases hready : s.impl p = some true
  swap
  · have hentries : s.entriesAfter p c deaths answer cut = s.entries := by
      rw [State.entriesAfter, if_neg hready]
    rw [hentries] at huse halive ⊢
    obtain ⟨g, hg, hslot, hpid⟩ := h.owned i hi huse (pidAlive_mourn.mp halive).1
    have hregs : s.regsAfter p cut c = s.regs := by
      cases c <;> simp [State.regsAfter, State.registerBy, hready]
    exact ⟨g, hregs ▸ hg, hslot, hpid⟩
  by_cases hother : ∀ w ∈ writes s.entries (s.aliveDuring deaths answer) p c, w.index ≠ i
  · exact owned_of_other h hi hother huse halive
  push Not at hother
  obtain ⟨w, hw, hindex⟩ := hother
  -- an entry that is reclaimed had no live process
  have hreclaim : c = .snapshot true ∨ c = .gcDead →
      (s.mourn p deaths cut).pidAlive (s.entriesAfter p c deaths answer cut i).pid = false := by
    intro hc
    have hwrites := writes_reclaim s.entries (s.aliveDuring deaths answer) p hc
    rw [hwrites] at hw
    obtain ⟨-, hdead⟩ := mem_reclaimed (mem_reclaim hw).1
    rw [hindex] at hdead
    have hclear : (s.entriesAfter p c deaths answer cut i).pid = (s.entries i).pid ∨
        (s.entriesAfter p c deaths answer cut i).pid = 0 :=
      pid_entriesAfter_clear fun w' hw' _ => (mem_reclaim (hwrites ▸ hw')).2
    rcases hclear with hpid | hpid
    · rw [hpid]
      by_contra hlives
      rw [aliveDuring_of_mourn ((Bool.not_eq_false _).mp hlives)] at hdead
      cases hdead
    · rw [hpid]
      rfl
  cases c with
  | register info now =>
      obtain ⟨j, hfree, rfl, -⟩ := mem_writes_register hw
      subst hindex
      have hslot : s.registerBy p = some w.index := by
        rw [State.registerBy, if_pos hready, hfree]
      cases cut with
      | none =>
          have hpid : (s.entriesAfter p (.register info now) deaths answer none w.index).pid = p :=
            (entriesAfter_register hslot).2.pid
          refine ⟨⟨w.index, p, info⟩, ?_, rfl, hpid.symm⟩
          simp [State.regsAfter, hslot]
      | some k =>
          have hleft : (s.entriesAfter p (.register info now) deaths answer (some k) w.index).inUse
              = false ∨
              (s.entriesAfter p (.register info now) deaths answer (some k) w.index).pid = p :=
            entriesAfter_register_cut hfree
          rcases hleft with hunused | hpid
          · rw [hunused] at huse
            cases huse
          · rw [hpid] at halive
            rcases (pidAlive_mourn.mp halive).2.2 with hnone | hne
            · cases hnone
            · exact absurd rfl hne
  | unregister slot =>
      obtain ⟨hslot, -⟩ := mem_writes_unregister hw
      obtain rfl : slot = i := hslot.symm.trans hindex
      obtain ⟨hcaller, -, -, -, -, howner⟩ := owner_of_mayCall h hmay
      cases cut with
      | none =>
          -- the last store frees it
          have hunused : (s.entriesAfter p (.unregister slot) deaths answer none slot).inUse
              = false := by
            rw [State.entriesAfter, if_pos hready]
            change (Write.apply (if slot < kMaxEntries ∧ (s.entries slot).inUse = true then
              Write.all slot clearStores else []) s.entries slot).inUse = false
            split
            · rw [Write.apply_at]
              rfl
            · rename_i hnot
              exact (Bool.not_eq_true _).mp fun hused => hnot ⟨hi, hused⟩
          rw [hunused] at huse
          cases huse
      | some k =>
          have hclear : (s.entriesAfter p (.unregister slot) deaths answer (some k) slot).pid
              = (s.entries slot).pid ∨
              (s.entriesAfter p (.unregister slot) deaths answer (some k) slot).pid = 0 :=
            pid_entriesAfter_clear fun w' hw' _ => (mem_writes_unregister hw').2
          rcases hclear with hpid | hpid
          · rw [hpid, howner] at halive
            rcases (pidAlive_mourn.mp halive).2.2 with hnone | hne
            · cases hnone
            · exact absurd rfl hne
          · rw [hpid] at halive
            cases halive
  | snapshot gc =>
      cases gc with
      | false => cases hw
      | true =>
          rw [hreclaim (by simp)] at halive
          cases halive
  | gcDead =>
      rw [hreclaim (by simp)] at halive
      cases halive

theorem inv_init : Inv machine.init where
  written := fun _ h => nomatch h
  owned := fun _ _ h => nomatch h
  pool := fun _ => ⟨rfl, (fun _ h => nomatch h)⟩

/-- The pool object of a process is built. -/
theorem Inv.setImpl (h : Inv s) {ready : Bool} (hready : ready = true → s.initState = .ready) :
    Inv { s with impl := Function.update s.impl p (some ready) } where
  written := h.written
  owned := h.owned
  pool := by
    intro hpool
    refine ⟨(h.pool hpool).1, fun q hq => ?_⟩
    by_cases hqp : q = p
    · subst hqp
      have hyes : ready = true := by simpa using hq
      exact hpool (hready hyes)
    · exact (h.pool hpool).2 q (by simpa [hqp] using hq)

/-- **Every step** keeps the invariant. -/
theorem inv_step {a : Action} (h : Inv s) (hstep : step s a = some t) : Inv t := by
  cases a with
  | initBegin p =>
      simp only [step] at hstep
      split at hstep <;> cases hstep
      rename_i hready
      have hpool : s.initState ≠ .ready := by
        rw [hready.2.2]
        exact nofun
      exact ⟨h.written, h.owned, fun _ => h.pool hpool⟩
  | initEnd p =>
      simp only [step] at hstep
      split at hstep <;> cases hstep
      rename_i hready
      have hpool : s.initState ≠ .ready := by
        rw [hready.2]
        exact nofun
      refine ⟨fun g hg => ?_, (fun _ _ huse => nomatch huse), fun hnot => absurd rfl hnot⟩
      rw [(h.pool hpool).1] at hg
      cases hg
  | attach p =>
      simp only [step] at hstep
      split at hstep <;> cases hstep
      rename_i hready
      exact h.setImpl fun _ => hready.2.2
  | giveUp p =>
      simp only [step] at hstep
      split at hstep <;> cases hstep
      exact h.setImpl nofun
  | die p =>
      cases hstep
      have hmono : ∀ {pid}, ({ s with alive := Function.update s.alive p false } : State).pidAlive pid
          = true → s.pidAlive pid = true := by
        intro pid hpid
        by_cases hp : pid = p
        · subst hp
          simp [State.pidAlive] at hpid
        · simpa [State.pidAlive, hp] using hpid
      exact ⟨fun g hg halive => h.written g hg (hmono halive),
        fun i hi huse halive => h.owned i hi huse (hmono halive), h.pool⟩
  | call p c deaths answer cut =>
      simp only [step] at hstep
      split at hstep <;> cases hstep
      rename_i hmay
      refine ⟨fun g hg halive => written_call h hmay hg halive,
        fun i hi huse halive => owned_call h hmay hi huse halive, fun hpool => ?_⟩
      obtain ⟨hnone, himpl⟩ := h.pool hpool
      refine ⟨?_, himpl⟩
      apply List.eq_nil_iff_forall_not_mem.mpr
      intro g hg
      rcases mem_regsAfter hg with ⟨hold, -⟩ | ⟨now, -, -, -, hslot⟩
      · rw [hnone] at hold
        cases hold
      · rw [State.registerBy, if_neg (himpl p)] at hslot
        cases hslot

/-! ## Snapshots and lookups -/

/-- A registration appears once, as what it was registered. -/
def Appears (g : Reg) (all : List EntrySnapshot) : Prop :=
  ∃ e, all.filter (fun e => e.slot = g.slot) = [e] ∧ e.kind = g.info.kind ∧
    e.domainId = g.info.domainId ∧ e.topicName = g.info.topicName ∧ e.pid = g.pid ∧
    e.inUse = true ∧ e.alive = true

/-- It is found under its name. -/
def Finds (g : Reg) (all : List EntrySnapshot) : Prop :=
  ∀ domainId, BitVec.ofNat 32 domainId = g.info.domainId →
    (lookForPeer all g.info.topicName domainId g.info.kind).isSome = true ∧
      ((g.info.kind = .shmServer ∨ g.info.kind = .shmClient) → ∀ selfPid, selfPid ≠ g.pid →
        ∀ probe, shmChannelOccupied all g.info.topicName domainId selfPid probe = true)

/-- Entries made for different slots are told apart by these. -/
theorem filter_filterMap {f : ℕ → Option EntrySnapshot} (hslot : ∀ i e, f i = some e → e.slot = i)
    {slots : List ℕ} (hnodup : slots.Nodup) (hi : i ∈ slots) :
    (slots.filterMap f).filter (fun e => e.slot = i) = (f i).toList := by
  have hnone : ∀ slots : List ℕ, i ∉ slots →
      (slots.filterMap f).filter (fun e => e.slot = i) = [] := by
    intro slots hi
    apply List.filter_eq_nil_iff.mpr
    intro e he heq
    obtain ⟨j, hj, hfj⟩ := List.mem_filterMap.mp he
    have hji : j = i := (hslot j e hfj).symm.trans (of_decide_eq_true heq)
    exact hi (hji ▸ hj)
  induction slots with
  | nil => cases hi
  | cons j rest ih =>
      obtain ⟨hfresh, hrest⟩ := List.nodup_cons.mp hnodup
      rw [List.filterMap_cons]
      by_cases hji : j = i
      · subst hji
        cases hf : f j with
        | none => exact hnone rest hfresh
        | some e =>
            have hmine : e.slot = j := hslot j e hf
            simp only
            rw [List.filter_cons_of_pos (by simpa using hmine), hnone rest hfresh]
            rfl
      · have hlater := ih hrest ((List.mem_cons.mp hi).resolve_left (Ne.symm hji))
        cases hf : f j with
        | none => exact hlater
        | some e =>
            have hother : ¬ e.slot = i := fun heq => hji ((hslot j e hf).symm.trans heq)
            simp only
            rw [List.filter_cons_of_neg (by simpa using hother), hlater]

/-- The entry of a live process in a snapshot. -/
theorem filter_snapshot {entries : Entries} {alive : ℕ → Bool} (gc : Bool) (hi : i < kMaxEntries)
    (huse : (entries i).inUse = true) (halive : alive i = true) :
    (snapshot entries alive gc).filter (fun e => e.slot = i) =
      [{ slot := i, kind := (entries i).kind, pid := (entries i).pid
         registerTs := (entries i).registerTs, heartbeat := (entries i).heartbeat
         topicName := cString (entries i).topicName, typeName := cString (entries i).typeName
         domainId := (entries i).domainId, extra := cString (entries i).extra, inUse := true
         alive := true }] := by
  unfold snapshot
  rw [filter_filterMap _ List.nodup_range (List.mem_range.mpr hi)]
  · simp [huse, halive]
  · intro j e he
    dsimp only at he
    split at he
    · cases he
    · cases he
      rfl

/-- **A live registration in a snapshot.**  It appears exactly if its name fits. -/
theorem appears_iff (h : Inv s) {gc : Bool} (hg : g ∈ s.regs)
    (halive : (s.mourn p deaths none).pidAlive g.pid = true) :
    Appears g (s.snapshotBy p gc deaths answer) ↔
      s.impl p = some true ∧ Fits g.info.topicName := by
  unfold State.snapshotBy
  by_cases hready : s.impl p = some true
  · rw [if_pos hready]
    obtain ⟨hlt, hwritten⟩ := h.written g hg (pidAlive_mourn.mp halive).1
    have hlives : s.aliveDuring deaths answer g.slot = true :=
      aliveDuring_of_mourn (hwritten.pid ▸ halive)
    have hone := filter_snapshot gc hlt hwritten.inUse hlives
    unfold Appears
    rw [hone, hwritten.topicName]
    constructor
    · rintro ⟨e, he, -, -, hname, -⟩
      obtain rfl := List.head_eq_of_cons_eq he
      exact ⟨hready, (truncated_eq_self_iff _).mp hname⟩
    · rintro ⟨-, hfits⟩
      exact ⟨_, rfl, hwritten.kind, hwritten.domainId, (truncated_eq_self_iff _).mpr hfits,
        hwritten.pid, rfl, rfl⟩
  · rw [if_neg hready]
    refine iff_of_false ?_ fun h => hready h.1
    rintro ⟨e, he, -⟩
    cases he

/-- Once somebody is found, somebody stays found. -/
theorem isSome_foldl {α β : Type} {pick : Option β → α → Option β} {a : α}
    (htake : ∀ best, (pick best a).isSome = true)
    (hkeep : ∀ best a', best.isSome = true → (pick best a').isSome = true) :
    ∀ (all : List α) (best : Option β), a ∈ all ∨ best.isSome = true →
      (all.foldl pick best).isSome = true := by
  intro all
  induction all with
  | nil => exact fun best h => h.resolve_left List.not_mem_nil
  | cons a' rest ih =>
      intro best h
      rw [List.foldl_cons]
      apply ih
      rcases h with hmem | hbest
      · rcases List.mem_cons.mp hmem with rfl | hmem
        · exact Or.inr (htake best)
        · exact Or.inl hmem
      · exact Or.inr (hkeep best a' hbest)

/-- `find_peer` finds somebody if anybody matches. -/
theorem lookForPeer_isSome {all : List EntrySnapshot} {e : EntrySnapshot} {domainId : ℕ}
    (he : e ∈ all) (huse : e.inUse = true) (halive : e.alive = true)
    (hdomain : e.domainId = BitVec.ofNat 32 domainId) :
    (lookForPeer all e.topicName domainId e.kind).isSome = true := by
  refine isSome_foldl (a := e) (fun best => ?_) (fun best e' hbest => ?_) all none (Or.inl he)
  · simp only [huse, halive, hdomain]
    cases best with
    | none => simp
    | some b =>
        simp only [Bool.not_true, ne_eq, not_true_eq_false, decide_false, Bool.or_false,
          Bool.false_eq_true, if_false, or_self]
        split <;> rfl
  · obtain ⟨b, rfl⟩ := Option.isSome_iff_exists.mp hbest
    dsimp only
    repeat' split
    all_goals rfl

/-- Who appears is found. -/
theorem Appears.finds {all : List EntrySnapshot} (h : Appears g all) : Finds g all := by
  obtain ⟨e, hfilter, hkind, hdomain, hname, hpid, huse, halive⟩ := h
  have hmem : e ∈ all := by
    have hin : e ∈ all.filter (fun e => e.slot = g.slot) := by
      rw [hfilter]
      exact List.mem_singleton_self e
    exact (List.mem_filter.mp hin).1
  intro domainId hcast
  have hcast' : e.domainId = BitVec.ofNat 32 domainId := hdomain.trans hcast.symm
  refine ⟨?_, fun hshm selfPid hself probe => ?_⟩
  · rw [← hname, ← hkind]
    exact lookForPeer_isSome hmem huse halive hcast'
  · have hfound : (all.any fun e =>
        e.inUse && e.alive && (e.kind = .shmServer || e.kind = .shmClient) &&
          e.topicName = g.info.topicName && e.domainId = BitVec.ofNat 32 domainId &&
            e.pid ≠ selfPid) = true := by
      apply List.any_eq_true.mpr
      refine ⟨e, hmem, ?_⟩
      rw [← hkind] at hshm
      have hne : g.pid ≠ selfPid := Ne.symm hself
      simp [huse, halive, hname, hcast', hpid, hshm, hne]
    rw [shmChannelOccupied, hfound, Bool.true_or]

/-! ## Runs -/

/-- What a call owes the others: it leaves the entries of other live processes alone; a snapshot
has every live registration, once and to be found under its name; and a registration is refused
only if all slots are those of live processes. -/
def Faithful (s : State) : Action → Prop
  | .call p c deaths answer cut =>
      (∀ g ∈ s.regs, g.pid ≠ p → (s.mourn p deaths cut).pidAlive g.pid = true →
        s.entriesAfter p c deaths answer cut g.slot = s.entries g.slot ∧
          g ∈ s.regsAfter p cut c) ∧
      match c, cut with
      | .snapshot gc, none =>
          ∀ g ∈ s.regs, (s.mourn p deaths none).pidAlive g.pid = true →
            Appears g (s.snapshotBy p gc deaths answer) ∧ Finds g (s.snapshotBy p gc deaths answer)
      | .register _ _, none =>
          s.registerBy p = none →
            ∀ i < kMaxEntries, ∃ g ∈ s.regs, g.slot = i ∧ s.pidAlive g.pid = true
      | _, _ => True
  | _ => True

/-- The condition: who takes a snapshot while somebody is registered has a pool that is ready,
and the names of those registered fit; who registers has a pool that is ready and finds a free
entry, or no entry is that of a dead process. -/
def Clean (s : State) : Action → Prop
  | .call p (.snapshot _) deaths _ none =>
      ∀ g ∈ s.regs, (s.mourn p deaths none).pidAlive g.pid = true →
        s.impl p = some true ∧ Fits g.info.topicName
  | .call p (.register _ _) _ _ none =>
      (s.impl p = some true ∧ ∃ i < kMaxEntries, (s.entries i).inUse = false) ∨
        ∀ i < kMaxEntries, (s.entries i).inUse = true ∧ s.pidAlive (s.entries i).pid = true
  | _ => True

/-- The entries of other live processes are left alone by every call. -/
theorem others_untouched (h : Inv s) (hmay : s.mayCall p c = true) :
    ∀ g ∈ s.regs, g.pid ≠ p → (s.mourn p deaths cut).pidAlive g.pid = true →
      s.entriesAfter p c deaths answer cut g.slot = s.entries g.slot ∧ g ∈ s.regsAfter p cut c :=
  fun _ hg hne halive =>
    ⟨entriesAfter_spare h hmay hg halive fun _ => hne, mem_regsAfter_of_ne hg fun _ => hne⟩

/-- When a registration is refused. -/
theorem refused_iff (h : Inv s) :
    (s.registerBy p = none →
      ∀ i < kMaxEntries, ∃ g ∈ s.regs, g.slot = i ∧ s.pidAlive g.pid = true) ↔
      (s.impl p = some true ∧ ∃ i < kMaxEntries, (s.entries i).inUse = false) ∨
        ∀ i < kMaxEntries, (s.entries i).inUse = true ∧ s.pidAlive (s.entries i).pid = true := by
  constructor
  · intro hrefused
    by_cases hfree : s.impl p = some true ∧ ∃ i < kMaxEntries, (s.entries i).inUse = false
    · exact Or.inl hfree
    · right
      have hnone : s.registerBy p = none := by
        unfold State.registerBy
        split
        · rename_i hready
          apply freeSlot_eq_none_iff.mpr
          intro i hi
          by_contra hunused
          exact hfree ⟨hready, i, hi, (Bool.not_eq_true _).mp hunused⟩
        · rfl
      intro i hi
      obtain ⟨g, hg, rfl, halive⟩ := hrefused hnone i hi
      obtain ⟨-, hwritten⟩ := h.written g hg halive
      exact ⟨hwritten.inUse, hwritten.pid ▸ halive⟩
  · rintro (⟨hready, i, hi, hunused⟩ | hall) hnone
    · rw [State.registerBy, if_pos hready] at hnone
      rw [freeSlot_eq_none_iff.mp hnone i hi] at hunused
      cases hunused
    · intro i hi
      obtain ⟨huse, halive⟩ := hall i hi
      obtain ⟨g, hg, hslot, hpid⟩ := h.owned i hi huse halive
      exact ⟨g, hg, hslot, hpid ▸ halive⟩

/-- **One call.**  It does what it owes exactly if it meets the condition. -/
theorem faithful_iff {a : Action} (h : Inv s) (hstep : step s a = some t) :
    Faithful s a ↔ Clean s a := by
  cases a with
  | call p c deaths answer cut =>
      simp only [step] at hstep
      split at hstep
      swap
      · cases hstep
      rename_i hmay
      refine (and_iff_right (others_untouched h hmay)).trans ?_
      cases c with
      | snapshot gc =>
          cases cut with
          | some k => exact Iff.rfl
          | none =>
              refine forall₂_congr fun g hg => forall_congr' fun halive => ?_
              rw [and_iff_left_of_imp Appears.finds]
              exact appears_iff h hg halive
      | register info now =>
          cases cut with
          | some k => exact Iff.rfl
          | none => exact refused_iff h
      | unregister slot => exact Iff.rfl
      | gcDead => exact Iff.rfl
  | _ => exact Iff.rfl

/-- **The info pool as a directory.**  In a run of any processes that register, unregister, take
snapshots, reclaim and die, every call does what it owes if and only if every call meets the
condition. -/
theorem directory_iff {actions : List Action} {s : State} (hrun : machine.run actions = some s) :
    machine.Guarded Faithful actions ↔ machine.Guarded Clean actions := by
  refine Machine.guardedFrom_iff ?_ ?_ inv_init hrun
  · exact fun _ _ _ h hstep => inv_step h hstep
  · exact fun _ _ _ h hstep => faithful_iff h hstep

/-- Process 1 initialises the segment and registers a server, and process 2 uses the pool, too. -/
def serverAndClient (topicName : List UInt8) : List Action :=
  let info : RegisterInfo :=
    { kind := .shmServer, topicName := topicName, typeName := [], domainId := 0, extra := [] }
  [.initBegin 1, .initEnd 1, .call 1 (.register info 5) [] (fun _ => false) none, .attach 2]

/-- A snapshot of process 2. -/
def snapshotOfClient : Action :=
  .call 2 (.snapshot false) [] (fun _ => false) none

theorem directory_iff_serverAndClient :
    ∃ s, machine.run (serverAndClient [97] ++ [snapshotOfClient]) = some s ∧
      (machine.Guarded Faithful (serverAndClient [97] ++ [snapshotOfClient]) ↔
        machine.Guarded Clean (serverAndClient [97] ++ [snapshotOfClient])) := by
  have hsome : (machine.run (serverAndClient [97] ++ [snapshotOfClient])).isSome = true := by
    decide +kernel
  obtain ⟨s, hrun⟩ := Option.isSome_iff_exists.mp hsome
  exact ⟨s, hrun, directory_iff hrun⟩

/-- A live server is registered under a name, and a snapshot of process 2 has nobody under it. -/
def Missed (topicName : List UInt8) (s : State) : Prop :=
  (∃ g ∈ s.regs, g.info.topicName = topicName ∧ g.info.kind = .shmServer ∧ g.info.domainId = 0 ∧
    (s.mourn 2 [] none).pidAlive g.pid = true) ∧
  lookForPeer (s.snapshotBy 2 false [] fun _ => false) topicName 0 .shmServer = none ∧
  shmChannelOccupied (s.snapshotBy 2 false [] fun _ => false) topicName 0 2 false = false

instance (topicName : List UInt8) : DecidablePred (Missed topicName) :=
  fun _ => inferInstanceAs (Decidable (_ ∧ _))

theorem Missed.not_faithful {topicName : List UInt8} (h : Missed topicName s) :
    ¬ Faithful s snapshotOfClient := by
  obtain ⟨⟨g, hg, hname, hkind, hdomain, halive⟩, hnone, -⟩ := h
  rintro ⟨-, hall⟩
  obtain ⟨-, hfinds⟩ := hall g hg halive
  have hfound := (hfinds 0 hdomain.symm).1
  rw [hname, hkind, hnone] at hfound
  cases hfound

/-- **A long name.**  With 128 characters the server is not found. -/
theorem long_name_missed :
    ∃ s, machine.run (serverAndClient (List.replicate 128 97)) = some s ∧
      Missed (List.replicate 128 97) s ∧ ¬ Faithful s snapshotOfClient := by
  have hmissed : ∃ s, machine.run (serverAndClient (List.replicate 128 97)) = some s ∧
      Missed (List.replicate 128 97) s :=
    Machine.exists_of_any (M := machine) (by decide +kernel)
  obtain ⟨s, hrun, h⟩ := hmissed
  exact ⟨s, hrun, h, h.not_faithful⟩

end DzIpc.Control.InfoPool
