import DzIpc.LibIpc.UnicastMany

/-!
# The unicast ring of many producers and consumers is a FIFO queue

The claims of positions are the events of the bounded FIFO queue of 255 values (`simulates`).

* `unicast_fifo_of_run`: what the pushes claimed is what the pops got, whole and in that order, followed by
  what is in the ring.
* `unicast_pop_of_quiet`: when no call is running, the next pop gets the oldest value, also where `wt_` has
  been left behind.
-/

namespace DzIpc.LibIpc.UnicastMany

open BoundedFifo Cells Threads
open UnicastRing (Data)

variable {T : Type} [DecidableEq T] {n : ℕ} {s : State T n} {A : BoundedFifo.State T (Data n)}
  {t : T} {cells : List (Fin n)} {spurious : Bool}

/-! ## The accesses -/

theorem record_of_ne (hpc : ∀ curRd out, s.threads t ≠ .casRd curRd out) :
    s.record t spurious = s.popped := by
  unfold State.record
  split
  · next curRd out heq => exact absurd heq (hpc curRd out)
  · rfl

/-- What a producer writes belongs to it alone. -/
theorem others_of_writing (h : Inv s A) {p : ℕ} (hpc : (s.threads t).writing = some p) :
    ∀ t', t' ≠ t → (s.threads t').writing ≠ some p ∧ (s.threads t').advancing ≠ some p :=
  fun _ hne => ⟨fun heq => hne (h.writers heq hpc), fun heq => h.apart heq hpc⟩

/-- A slot between `wt_` and `ct_` has the mark of its position or none. -/
theorem flag_cases (h : Inv s A) {p : ℕ} (hlow : s.ring.wt ≤ p) (hhigh : p < A.log.length) :
    (slotAt s.ring p).flag = 0 ∨ (slotAt s.ring p).flag = MultiRing.committed p := by
  refine (h.marks (indexOf p)).imp_right ?_
  rintro ⟨q, hi, hle, hlt, hmark⟩
  have hread := h.read
  have hfits := h.fits
  obtain rfl : q = p := slot_inj (by omega) (by omega) hi
  exact hmark

/-- The bytes that are left once those of `cells` have been copied. -/
theorem agreeOff_left {cells left : List (Fin n)} {v w : UnicastRing.Data n}
    (h : AgreeOff (left.filter fun c => c ∉ cells) v w) :
    AgreeOff (left.filter fun c => !cells.contains c) v w := by
  have hsame : (left.filter fun c => !cells.contains c) = left.filter fun c => c ∉ cells :=
    List.filter_congr fun c _ => by simp
  rwa [hsame]

theorem inv_write (h : Inv s A) {v : UnicastRing.Data n} {cur : ℕ} {left : List (Fin n)}
    (hpc : s.threads t = .write v cur left) (cells : List (Fin n)) :
    Inv (s.after t
      (setSlot s.ring cur ⟨copyCells cells v (slotAt s.ring cur).data, (slotAt s.ring cur).flag⟩)
      (.write v cur (left.filter fun c => !cells.contains c)) s.popped) A := by
  have hplace := h.places t
  have hmine : (s.threads t).writing = some cur := by rw [hpc]; rfl
  have hothers := others_of_writing h hmine
  obtain ⟨hlow, hhigh, hflag⟩ := writing_spec hplace hmine
  rw [hpc] at hplace
  obtain ⟨-, -, hv, hagree⟩ := hplace
  refine inv_setSlot h hlow hhigh hothers (fun q hq => ?_) (by rw [hpc]; rfl)
    (flag_cases h hlow hhigh) ?_ ?_ ?_ ?_ ?_
  · exact (Option.some.inj (hmine.symm.trans hq)).symm
  · refine ⟨hlow, ?_, hv, ?_⟩
    · rw [slotAt_setSlot]
      exact hflag
    · rw [slotAt_setSlot]
      exact agreeOff_left (hagree.copyCells cells)
  · exact fun q hq => by rw [hpc]; exact hq
  · exact fun q hq => by cases hq
  · exact fun w _ => Or.inl rfl
  · exact Or.inl rfl

/-- The slot is written. -/
theorem inv_written (h : Inv s A) {v : Data n} {cur : ℕ} (hpc : s.threads t = .write v cur []) :
    Inv (s.after t s.ring (.mark cur) s.popped) A := by
  have hplace := h.places t
  have hmine : (s.threads t).writing = some cur := by rw [hpc]; rfl
  obtain ⟨hlow, hhigh, hflag⟩ := writing_spec hplace hmine
  rw [hpc] at hplace
  obtain ⟨-, -, hv, hagree⟩ := hplace
  rw [← hagree.eq] at hv
  have hself : setSlot s.ring cur (slotAt s.ring cur) = s.ring := by
    unfold setSlot slotAt
    rw [Function.update_eq_self]
  have hnext : Inv (s.after t (setSlot s.ring cur (slotAt s.ring cur)) (.mark cur) s.popped) A := by
    refine inv_setSlot h hlow hhigh (others_of_writing h hmine) (fun q hq => ?_) (by rw [hpc]; rfl)
      (flag_cases h hlow hhigh) ?_ (fun q hq => ?_) (fun q hq => ?_) (fun w _ => Or.inl rfl) (Or.inl rfl)
    · exact (Option.some.inj (hmine.symm.trans hq)).symm
    · rw [hself]
      exact ⟨hlow, hflag, hv⟩
    · rw [hpc]
      exact hq
    · cases hq
  rwa [hself] at hnext

theorem inv_mark (h : Inv s A) {cur : ℕ} (hpc : s.threads t = .mark cur) :
    Inv (s.after t (setSlot s.ring cur ⟨(slotAt s.ring cur).data, MultiRing.committed cur⟩)
      (.loadMark cur) s.popped) A := by
  have hplace := h.places t
  have hmine : (s.threads t).writing = some cur := by rw [hpc]; rfl
  have hothers := others_of_writing h hmine
  obtain ⟨hlow, hhigh, -⟩ := writing_spec hplace hmine
  rw [hpc] at hplace
  obtain ⟨-, -, hv⟩ := hplace
  refine inv_setSlot h hlow hhigh hothers (fun q hq => ?_) (by rw [hpc]; rfl) (Or.inr rfl) trivial
    ?_ ?_ ?_ (Or.inr (Or.inl rfl))
  · exact (Option.some.inj (hmine.symm.trans hq)).symm
  · exact fun q hq => by cases hq
  · exact fun q hq => by cases hq
  · intro w hw
    refine Or.inr ?_
    rw [hv] at hw
    exact Option.some.inj hw

/-- Whoever clears the mark of the position that `wt_` stands at has it for itself. -/
theorem inv_casMark (h : Inv s A) {who : Helper} {cur cac : ℕ}
    (hpc : s.threads t = .casMark who cur cac) (hflag : (slotAt s.ring cur).flag = cac) :
    Inv (s.after t (setSlot s.ring cur ⟨(slotAt s.ring cur).data, 0⟩) (.storeWt who cur) s.popped)
      A := by
  have hplace := h.places t
  rw [hpc] at hplace
  obtain ⟨hle, rfl⟩ := hplace
  have hearly := h.early
  have hwritten := h.written
  obtain ⟨hlow, hhigh⟩ := mark_spec h (by omega) hflag
  have hothers : ∀ t', (s.threads t').writing ≠ some cur ∧ (s.threads t').advancing ≠ some cur :=
    fun t' => ⟨fun heq => (writing_spec (h.places t') heq).2.2 hflag,
      fun heq => (advancing_spec (h.places t') heq).2.2 hflag⟩
  refine inv_setSlot h hlow hhigh (fun t' _ => hothers t') (fun q hq => ?_) (by rw [hpc]; rfl)
    (Or.inl rfl) ?_ ?_ ?_ ?_ (Or.inr (Or.inr rfl))
  · rw [hpc] at hq
    cases hq
  · refine ⟨Nat.le_antisymm hle hlow, hhigh, ?_⟩
    rw [slotAt_setSlot]
    exact (commit_ne_zero (by omega)).symm
  · exact fun q hq => by cases hq
  · exact fun q hq => ⟨(Option.some.inj hq).symm, rfl⟩
  · intro v hv
    rcases h.stored cur v (h.read.trans hlow) hv with ⟨t', ht'⟩ | hdata
    · exact absurd ht' (hothers t').1
    · exact Or.inr hdata

/-- An access that claims no position keeps the invariant. -/
theorem inv_access (h : Inv s A) {o : Ring n × Pc n}
    (hstep : accessStep s.ring cells spurious (s.threads t) = some o)
    (hevent : event s (.access t cells spurious) = none) :
    Inv (s.after t o.1 o.2 (s.record t spurious)) A := by
  have hplace := h.places t
  cases hpc : s.threads t with
  | idle =>
      rw [hpc] at hstep
      cases hstep
  | loadCt v =>
      have hlook : (s.threads t).looking := by rw [hpc]; rfl
      rw [hpc] at hstep
      cases hstep
      rw [record_of_ne (by simp [hpc])]
      exact inv_look h hlook rfl h.ct.le
  | loadRd v cur =>
      have hlook : (s.threads t).looking := by rw [hpc]; rfl
      rw [hpc] at hstep hplace
      have hle : cur ≤ A.log.length := hplace
      rw [record_of_ne (by simp [hpc])]
      simp only [accessStep] at hstep
      split at hstep
      · cases hstep
        exact inv_look h hlook rfl trivial
      · next hroom =>
          cases hstep
          refine inv_look h hlook rfl ⟨hle, fun heq => ?_⟩
          have hfits := h.fits
          refine Nat.lt_of_le_of_ne (heq ▸ hfits) fun hfull => hroom ?_
          rw [indexOf_u2, h.rd]
          apply Fin.ext
          change (cur + 1) % 256 = A.taken.length % 256
          omega
  | casCt v cur =>
      have hlook : (s.threads t).looking := by rw [hpc]; rfl
      rw [hpc] at hstep
      rw [record_of_ne (by simp [hpc])]
      simp only [accessStep] at hstep
      split at hstep
      · next hcas =>
          rw [Bool.and_eq_true, Bool.not_eq_true', decide_eq_true_eq] at hcas
          obtain ⟨rfl, heq⟩ := hcas
          simp [event, hpc, heq] at hevent
      · cases hstep
        exact inv_look h hlook rfl trivial
  | write v cur left =>
      rw [hpc] at hstep hplace
      rw [record_of_ne (by simp [hpc])]
      simp only [accessStep] at hstep
      split at hstep
      · next hleft =>
          cases hstep
          subst hleft
          exact inv_written h hpc
      · cases hstep
        exact inv_write h hpc cells
  | mark cur =>
      rw [hpc] at hstep
      cases hstep
      rw [record_of_ne (by simp [hpc])]
      exact inv_mark h hpc
  | loadMark cur =>
      have hlook : (s.threads t).looking := by rw [hpc]; rfl
      rw [hpc] at hstep
      cases hstep
      rw [record_of_ne (by simp [hpc])]
      exact inv_look h hlook rfl trivial
  | loadWt cur cac =>
      have hlook : (s.threads t).looking := by rw [hpc]; rfl
      rw [hpc] at hstep
      rw [record_of_ne (by simp [hpc])]
      simp only [accessStep] at hstep
      split at hstep
      · cases hstep
        exact inv_look h hlook rfl trivial
      · next hnext =>
          cases hstep
          obtain ⟨hwt, hcac⟩ := not_or.mp hnext
          exact inv_look h hlook rfl ⟨(not_not.mp hwt).le, not_not.mp hcac⟩
  | casMark who cur cac =>
      have hlook : (s.threads t).looking := by rw [hpc]; rfl
      rw [hpc] at hstep
      rw [record_of_ne (by simp [hpc])]
      simp only [accessStep] at hstep
      split at hstep
      · next hcas =>
          cases hstep
          exact inv_casMark h hpc hcas.2
      · cases who with
        | producer =>
            cases hstep
            exact inv_look h hlook rfl trivial
        | consumer =>
            cases hstep
            exact inv_look h hlook rfl trivial
  | storeWt who cur =>
      have hold : (s.threads t).advancing = some cur := by rw [hpc]; rfl
      have hwrite : (s.threads t).writing = none := by rw [hpc]; rfl
      rw [hpc] at hstep
      rw [record_of_ne (by simp [hpc])]
      cases who with
      | producer =>
          cases hstep
          exact inv_storeWt h hold hwrite rfl fun _ => trivial
      | consumer =>
          cases hstep
          exact inv_storeWt h hold hwrite rfl fun _ => trivial
  | popRd =>
      have hlook : (s.threads t).looking := by rw [hpc]; rfl
      rw [hpc] at hstep
      cases hstep
      rw [record_of_ne (by simp [hpc])]
      exact inv_look h hlook rfl h.rd.le
  | popWt curRd =>
      have hlook : (s.threads t).looking := by rw [hpc]; rfl
      rw [hpc] at hstep hplace
      have hle : curRd ≤ A.taken.length := hplace
      rw [record_of_ne (by simp [hpc])]
      simp only [accessStep] at hstep
      split at hstep
      · cases hstep
        exact inv_look h hlook rfl (Nat.le_refl s.ring.wt)
      · next hne =>
          cases hstep
          refine inv_look h hlook rfl ⟨hle, fun heq => ?_⟩
          have hlt : curRd < s.ring.wt := by
            refine Nat.lt_of_le_of_ne (heq ▸ h.read) ?_
            rintro rfl
            exact hne rfl
          have hwritten := h.written
          exact ⟨hlt, _, List.getElem?_eq_getElem (by omega), agreeOff_of_all List.mem_finRange _ _⟩
  | popMark curWt =>
      have hlook : (s.threads t).looking := by rw [hpc]; rfl
      rw [hpc] at hstep hplace
      rw [record_of_ne (by simp [hpc])]
      simp only [accessStep] at hstep
      split at hstep
      · cases hstep
        exact inv_look h hlook rfl trivial
      · next hmark =>
          cases hstep
          exact inv_look h hlook rfl ⟨hplace, not_not.mp hmark⟩
  | copy curRd left out =>
      have hlook : (s.threads t).looking := by rw [hpc]; rfl
      rw [hpc] at hstep hplace
      obtain ⟨hle, hnext⟩ := hplace
      rw [record_of_ne (by simp [hpc])]
      simp only [accessStep] at hstep
      split at hstep
      · next hleft =>
          cases hstep
          refine inv_look h hlook rfl ⟨hle, fun heq => ?_⟩
          obtain ⟨hlt, v, hv, hagree⟩ := hnext heq
          subst hleft
          exact ⟨hlt, by rw [hagree.eq]; exact hv⟩
      · cases hstep
        refine inv_look h hlook rfl ⟨hle, fun heq => ?_⟩
        obtain ⟨hlt, v, hv, hagree⟩ := hnext heq
        -- nobody writes the slot of a value that has been passed
        rcases h.stored curRd v heq.ge hv with ⟨t', ht'⟩ | hdata
        · exact absurd (writing_spec (h.places t') ht').1 (Nat.not_le.mpr hlt)
        · rw [hdata]
          exact ⟨hlt, v, hv, agreeOff_left (hagree.copyCells cells)⟩
  | casRd curRd out =>
      have hlook : (s.threads t).looking := by rw [hpc]; rfl
      rw [hpc] at hstep
      simp only [accessStep] at hstep
      split at hstep
      · next hcas =>
          rw [Bool.and_eq_true, Bool.not_eq_true', decide_eq_true_eq] at hcas
          obtain ⟨rfl, heq⟩ := hcas
          simp [event, hpc, heq] at hevent
      · next hcas =>
          cases hstep
          have hrecord : s.record t spurious = s.popped := by
            unfold State.record
            rw [hpc]
            exact if_neg hcas
          rw [hrecord]
          exact inv_look h hlook rfl trivial

/-! ## Steps and runs -/

/-- A call begins. -/
theorem inv_call (h : Inv s A) {a : Action T n} {s' : State T n} (hstep : step s a = some s')
    (ha : ∀ t cells spurious, a ≠ .access t cells spurious) : Inv s' A := by
  cases a with
  | push t v =>
      simp only [step] at hstep
      split at hstep
      · next hidle =>
          cases hstep
          exact inv_look h (by rw [hidle]; rfl) rfl trivial
      · cases hstep
  | pop t =>
      simp only [step] at hstep
      split at hstep
      · next hidle =>
          cases hstep
          exact inv_look h (by rw [hidle]; rfl) rfl trivial
      · cases hstep
  | access t cells spurious => exact absurd rfl (ha t cells spurious)

omit [DecidableEq T] in
/-- The push that a step claims a position for, or the pop. -/
theorem event_cases {a : Action T n} {e : Event T (Data n)} (he : event s a = some e) :
    ∃ t cells, a = .access t cells false ∧
      ((∃ v, s.threads t = .casCt v s.ring.ct ∧ e = .enqueue v) ∨
        ∃ out, s.threads t = .casRd s.ring.rd out ∧ e = .dequeue t) := by
  unfold event at he
  split at he
  · next t cells =>
      refine ⟨t, cells, rfl, ?_⟩
      split at he
      · next v cur hpc =>
          split at he
          · next heq =>
              cases he
              exact Or.inl ⟨v, heq ▸ hpc, rfl⟩
          · cases he
      · next curRd out hpc =>
          split at he
          · next heq =>
              cases he
              exact Or.inr ⟨out, heq ▸ hpc, rfl⟩
          · cases he
      · cases he
  · cases he

/-- The commit index is not about to wrap. -/
def Early (s : State T n) (_ : Action T n) : Prop := s.ring.ct + 1 < 2 ^ 32

/-- The ring is the bounded FIFO queue of 255 values. -/
theorem simulates :
    (machine T n).Simulates (BoundedFifo.machine T (Data n) 255) Early event Inv := by
  constructor
  case init =>
    constructor
    case rd => rfl
    case ct => rfl
    case read => exact Nat.le_refl _
    case written => exact Nat.le_refl _
    case fits => exact Nat.zero_le _
    case early => exact Nat.two_pow_pos 32
    case popped => exact fun _ => rfl
    case marks => exact fun _ => Or.inl rfl
    case stored => exact fun p v _ hv => by cases hv
    case pending => exact fun p _ hlt => absurd hlt (Nat.not_lt_zero p)
    case writers => exact fun _ _ _ hp _ => by cases hp
    case advancers => exact fun _ _ _ hp _ => by cases hp
    case apart => exact fun _ _ _ hp _ => by cases hp
    case places => exact fun _ => trivial
  case silent =>
    intro s a s' A hinv _ hstep hevent
    cases a with
    | access t cells spurious =>
        obtain ⟨o, ho, rfl⟩ := Option.map_eq_some_iff.mp hstep
        exact inv_access hinv ho hevent
    | push t v =>
        have hcall : step s (.push t v) = some s' := hstep
        exact inv_call hinv hcall (by simp)
    | pop t =>
        have hcall : step s (.pop t) = some s' := hstep
        exact inv_call hinv hcall (by simp)
  case visible =>
    intro s a s' A e hinv hearly hstep hevent
    obtain ⟨t, cells, rfl, ⟨v, hpc, rfl⟩ | ⟨out, hpc, rfl⟩⟩ := event_cases hevent
    · obtain ⟨A', hA', hinv'⟩ := inv_claim hinv hpc rfl hearly
      refine ⟨A', hA', ?_⟩
      obtain ⟨o, ho, rfl⟩ := Option.map_eq_some_iff.mp hstep
      rw [hpc] at ho
      simp only [accessStep, Bool.not_false, decide_true, Bool.and_self, if_true] at ho
      cases ho
      rw [record_of_ne (by simp [hpc])]
      exact hinv'
    · obtain ⟨A', hA', hinv'⟩ := inv_take hinv hpc rfl
      refine ⟨A', hA', ?_⟩
      obtain ⟨o, ho, rfl⟩ := Option.map_eq_some_iff.mp hstep
      rw [hpc] at ho
      simp only [accessStep, Bool.not_false, decide_true, Bool.and_self, if_true] at ho
      cases ho
      have hrecord : s.record t false = Function.update s.popped t (s.popped t ++ [out]) := by
        unfold State.record
        rw [hpc]
        exact if_pos (by simp)
      rw [hrecord]
      exact hinv'

theorem accessStep_ct {r : Ring n} {pc : Pc n} {o : Ring n × Pc n}
    (hstep : accessStep r cells spurious pc = some o) : o.1.ct ≤ r.ct + 1 := by
  have hu2 : ∀ c, u2 c ≤ c := fun c => Nat.mod_le _ _
  cases pc with
  | idle => cases hstep
  | casCt v cur =>
      simp only [accessStep] at hstep
      split at hstep
      · next hcas =>
          rw [Bool.and_eq_true, decide_eq_true_eq] at hcas
          cases hstep
          rw [hcas.2]
          exact hu2 (cur + 1)
      · cases hstep
        exact Nat.le_succ _
  | casMark who cur cac =>
      simp only [accessStep] at hstep
      split at hstep
      · cases hstep
        exact Nat.le_succ _
      · cases who <;> cases hstep <;> exact Nat.le_succ _
  | storeWt who cur => cases who <;> cases hstep <;> exact Nat.le_succ _
  | loadRd v cur => simp only [accessStep] at hstep; split at hstep <;> cases hstep <;> exact Nat.le_succ _
  | write v cur left =>
      simp only [accessStep] at hstep; split at hstep <;> cases hstep <;> exact Nat.le_succ _
  | loadWt cur cac => simp only [accessStep] at hstep; split at hstep <;> cases hstep <;> exact Nat.le_succ _
  | popWt curRd => simp only [accessStep] at hstep; split at hstep <;> cases hstep <;> exact Nat.le_succ _
  | popMark curWt =>
      simp only [accessStep] at hstep; split at hstep <;> cases hstep <;> exact Nat.le_succ _
  | copy curRd left out =>
      simp only [accessStep] at hstep; split at hstep <;> cases hstep <;> exact Nat.le_succ _
  | casRd curRd out =>
      simp only [accessStep] at hstep; split at hstep <;> cases hstep <;> exact Nat.le_succ _
  | _ =>
      cases hstep
      exact Nat.le_succ _

theorem step_ct {s s' : State T n} {a : Action T n} (hstep : step s a = some s') :
    s'.ring.ct ≤ s.ring.ct + 1 := by
  cases a with
  | access t cells spurious =>
      obtain ⟨o, ho, rfl⟩ := Option.map_eq_some_iff.mp hstep
      exact accessStep_ct ho
  | push t v =>
      simp only [step] at hstep
      split at hstep <;> cases hstep
      exact Nat.le_succ _
  | pop t =>
      simp only [step] at hstep
      split at hstep <;> cases hstep
      exact Nat.le_succ _

section

variable {actions : List (Action T n)} {u : State T n}

/-- A run that is too short for `ct_` to wrap is a run of the FIFO queue. -/
theorem inv_of_run (hrun : (machine T n).run actions = some u) (hshort : actions.length < 2 ^ 32) :
    ∃ A, (BoundedFifo.machine T (Data n) 255).run ((machine T n).events event actions) = some A ∧
      Inv u A := by
  have hguarded : (machine T n).Guarded Early actions := by
    have h := @Machine.guardedFrom_of_length _ _ (machine T n) (fun s => s.ring.ct) (2 ^ 32) step_ct
      actions (machine T n).init
    exact h ((Nat.zero_add _).symm ▸ hshort)
  exact simulates.run hguarded hrun

/-- A byte. -/
def byte (b : UInt8) : Data 1 := fun _ => b

/-- The next accesses of a thread. -/
def accesses (t : Bool) (k : ℕ) : List (Action Bool 1) :=
  List.replicate k (.access t [⟨0, Nat.one_pos⟩] false)

/-- Two pushes and a pop.  The second push is done first and finds `wt_` behind; the pop passes the
first value, so the first push goes as well, and nobody passes the second value. -/
def leftBehind : List (Action Bool 1) :=
  .push false (byte 7) :: accesses false 5 ++ .push true (byte 8) :: accesses true 8 ++
    accesses false 2 ++ .pop true :: accesses true 5 ++ accesses false 1 ++ accesses true 5

/-- The steps of one thread, without a spurious failure. -/
def Alone (t : T) (actions : List (Action T n)) : Prop :=
  ∀ a ∈ actions, ∃ cells, a = .access t cells false

/-- A thread alone gets from one state to another. -/
def Reaches (t : T) (s s' : State T n) : Prop :=
  ∃ actions, Alone t actions ∧ (machine T n).runFrom s actions = some s'

theorem Reaches.refl (t : T) (s : State T n) : Reaches t s s :=
  ⟨[], fun _ ha => absurd ha List.not_mem_nil, rfl⟩

theorem Reaches.head {s s' s'' : State T n} {cells : List (Fin n)}
    (hstep : (machine T n).step s (.access t cells false) = some s') (h : Reaches t s' s'') :
    Reaches t s s'' := by
  obtain ⟨actions, halone, hrun⟩ := h
  refine ⟨.access t cells false :: actions, ?_, (Machine.runFrom_cons hstep).mpr hrun⟩
  exact List.forall_mem_cons.mpr ⟨⟨cells, rfl⟩, halone⟩

/-- An access that claims no position. -/
theorem exists_silent (h : Inv s A) {pc pc' : Pc n} {r' : Ring n} (cells : List (Fin n))
    (hpc : s.threads t = pc) (hct : ∀ v cur, pc ≠ .casCt v cur)
    (hrd : ∀ curRd out, pc ≠ .casRd curRd out)
    (ho : accessStep s.ring cells false pc = some (r', pc')) :
    ∃ s', (machine T n).step s (.access t cells false) = some s' ∧ Inv s' A ∧
      s'.threads t = pc' ∧ s'.ring = r' ∧ s'.popped = s.popped := by
  subst hpc
  have hevent : event s (.access t cells false) = none := by
    cases he : event s (.access t cells false) with
    | none => rfl
    | some e =>
        obtain ⟨t', cells', heq, ⟨v, hpc, -⟩ | ⟨out, hpc, -⟩⟩ := event_cases he
        · cases heq
          exact absurd hpc (hct v _)
        · cases heq
          exact absurd hpc (hrd _ out)
  exact ⟨_, Option.map_eq_some_iff.mpr ⟨_, ho, rfl⟩, inv_access h ho hevent, after_self, rfl,
    record_of_ne hrd⟩

/-- A thread alone gets the oldest value. -/
def Gets (A : BoundedFifo.State T (Data n)) (t : T) (s : State T n) : Prop :=
  ∃ s' v, Reaches t s s' ∧ s'.threads t = .idle ∧ A.log[A.taken.length]? = some v ∧
    s'.popped t = s.popped t ++ [v]

theorem Gets.head {s s' : State T n} {cells : List (Fin n)}
    (hstep : (machine T n).step s (.access t cells false) = some s') (hpopped : s'.popped = s.popped)
    (h : Gets A t s') : Gets A t s := by
  obtain ⟨s'', v, hreach, hidle, hv, hgot⟩ := h
  exact ⟨s'', v, hreach.head hstep, hidle, hv, hpopped ▸ hgot⟩

/-- A pop that has copied the value at `rd_`. -/
theorem gets_of_casRd (h : Inv s A) {out : Data n} (hpc : s.threads t = .casRd s.ring.rd out) :
    Gets A t s := by
  have hplace := h.places t
  rw [hpc, h.rd] at hplace
  obtain ⟨-, hout⟩ := hplace.2 rfl
  have ho : accessStep s.ring [] false (s.threads t) =
      some ({ s.ring with rd := u2 (s.ring.rd + 1) }, .idle) := by
    rw [hpc]
    exact if_pos (by simp)
  have hstep : (machine T n).step s (.access t [] false) =
      some (s.after t { s.ring with rd := u2 (s.ring.rd + 1) } .idle (s.record t false)) :=
    Option.map_eq_some_iff.mpr ⟨_, ho, rfl⟩
  refine ⟨_, out, (Reaches.refl t _).head hstep, after_self, hout, ?_⟩
  rw [after_popped]
  unfold State.record
  rw [hpc]
  simp only [Bool.not_false, decide_true, Bool.and_self, if_true, Function.update_self]

/-- A pop that copies the value at `rd_`. -/
theorem gets_of_copy (h : Inv s A) {left : List (Fin n)} {out : Data n}
    (hpc : s.threads t = .copy s.ring.rd left out) : Gets A t s := by
  have hdone : ∀ {s : State T n} {out : Data n}, Inv s A → s.threads t = .copy s.ring.rd [] out →
      Gets A t s := by
    intro s out h hpc
    have ho : accessStep s.ring [] false (.copy s.ring.rd [] out) =
        some (s.ring, .casRd s.ring.rd out) := by simp [accessStep]
    obtain ⟨s₁, h₁, hinv₁, hpc₁, hring₁, hpopped₁⟩ := exists_silent h [] hpc (by simp) (by simp) ho
    rw [← hring₁] at hpc₁
    exact (gets_of_casRd hinv₁ hpc₁).head h₁ hpopped₁
  by_cases hleft : left = []
  · subst hleft
    exact hdone h hpc
  · -- all bytes at once
    obtain ⟨s₁, h₁, hinv₁, hpc₁, hring₁, hpopped₁⟩ :=
      exists_silent h left hpc (by simp) (by simp) (if_neg hleft)
    have hnone : (left.filter fun c => !left.contains c) = [] := by simp
    rw [hnone, ← hring₁] at hpc₁
    exact (hdone hinv₁ hpc₁).head h₁ hpopped₁

/-- A pop that finds a value that `wt_` has passed. -/
theorem gets_of_popRd (h : Inv s A) (hpc : s.threads t = .popRd)
    (hlt : A.taken.length < s.ring.wt) : Gets A t s := by
  have hwritten := h.written
  have hfits := h.fits
  obtain ⟨s₁, h₁, hinv₁, hpc₁, hring₁, hpopped₁⟩ :=
    exists_silent h [] hpc (by simp) (by simp) rfl
  have hne : indexOf s.ring.rd ≠ indexOf s₁.ring.wt := by
    rw [hring₁, h.rd]
    intro heq
    have heq' := slot_inj (by omega) (by omega) heq
    omega
  obtain ⟨s₂, h₂, hinv₂, hpc₂, hring₂, hpopped₂⟩ :=
    exists_silent hinv₁ [] hpc₁ (by simp) (by simp) (if_neg hne)
  rw [← hring₁, ← hring₂] at hpc₂
  exact ((gets_of_copy hinv₂ hpc₂).head h₂ hpopped₂).head h₁ hpopped₁

/-- A pop that finds the mark of the position at `wt_` advances it first. -/
theorem gets_of_mark (h : Inv s A) (hpc : s.threads t = .popRd)
    (hwt : A.taken.length = s.ring.wt)
    (hmark : (slotAt s.ring s.ring.wt).flag = MultiRing.committed s.ring.wt) : Gets A t s := by
  have hlt := (mark_spec h (h.written.trans_lt h.early) hmark).2
  obtain ⟨s₁, h₁, hinv₁, hpc₁, hring₁, hpopped₁⟩ :=
    exists_silent h [] hpc (by simp) (by simp) rfl
  obtain ⟨s₂, h₂, hinv₂, hpc₂, hring₂, hpopped₂⟩ :=
    exists_silent hinv₁ [] hpc₁ (by simp) (by simp) (if_pos (by rw [hring₁, h.rd, hwt]))
  rw [hring₁] at hpc₂ hring₂
  obtain ⟨s₃, h₃, hinv₃, hpc₃, hring₃, hpopped₃⟩ :=
    exists_silent hinv₂ [] hpc₂ (by simp) (by simp) (if_neg (by rw [hring₂, hmark]; simp))
  rw [hring₂] at hpc₃ hring₃
  obtain ⟨s₄, h₄, hinv₄, hpc₄, hring₄, hpopped₄⟩ :=
    exists_silent hinv₃ [] hpc₃ (by simp) (by simp) (if_pos ⟨Or.inr rfl, by rw [hring₃]⟩)
  obtain ⟨s₅, h₅, hinv₅, hpc₅, hring₅, hpopped₅⟩ :=
    exists_silent hinv₄ [] hpc₄ (by simp) (by simp) rfl
  have hnext : A.taken.length < s₅.ring.wt := by
    have hearly := h.early
    rw [hring₅, hwt]
    change s.ring.wt < u2 (s.ring.wt + 1)
    rw [u2_of_lt (by omega)]
    exact Nat.lt_succ_self _
  exact (((((gets_of_popRd hinv₅ hpc₅ hnext).head h₅ hpopped₅).head h₄ hpopped₄).head h₃
    hpopped₃).head h₂ hpopped₂).head h₁ hpopped₁

/-- **Nothing is stranded.**  When no call is running, a `pop` that runs alone gets the oldest value
in the ring, and finds the ring empty only if no value is in it, even where every producer has
returned without advancing `wt_` past its value. -/
theorem unicast_pop_of_quiet (hrun : (machine T n).run actions = some u) (hshort : actions.length < 2 ^ 32)
    (hquiet : ∀ t, u.threads t = .idle) (t : T) :
    ∃ A, (BoundedFifo.machine T (Data n) 255).run ((machine T n).events event actions) = some A ∧
      ∃ rest u', Alone t rest ∧ (machine T n).runFrom u (.pop t :: rest) = some u' ∧
        u'.threads t = .idle ∧ u'.popped t = u.popped t ++ A.queue.head?.toList := by
  obtain ⟨A, hA, hinv⟩ := inv_of_run hrun hshort
  refine ⟨A, hA, ?_⟩
  have hcall : (machine T n).step u (.pop t) = some (u.after t u.ring .popRd u.popped) := by
    simp only [machine, step, hquiet t]
  have hinv₀ : Inv (u.after t u.ring .popRd u.popped) A :=
    inv_look hinv (by rw [hquiet t]; rfl) rfl trivial
  cases hqueue : A.queue with
  | nil =>
      have hempty : A.log.length = A.taken.length := by
        rw [length_log, hqueue]
        rfl
      have hwt : A.taken.length = u.ring.wt :=
        Nat.le_antisymm hinv.read (hempty ▸ hinv.written)
      have hunmarked : (slotAt u.ring u.ring.wt).flag ≠ MultiRing.committed u.ring.wt := by
        intro hmark
        have hlt := (mark_spec hinv (hinv.written.trans_lt hinv.early) hmark).2
        omega
      obtain ⟨s₁, h₁, hinv₁, hpc₁, hring₁, hpopped₁⟩ :=
        exists_silent hinv₀ [] after_self (by simp) (by simp) rfl
      have hidx : indexOf u.ring.rd = indexOf s₁.ring.wt := by rw [hring₁, hinv.rd, hwt]; rfl
      obtain ⟨s₂, h₂, hinv₂, hpc₂, hring₂, hpopped₂⟩ :=
        exists_silent hinv₁ [] hpc₁ (by simp) (by simp) (if_pos hidx)
      rw [hring₁] at hpc₂ hring₂
      obtain ⟨s₃, h₃, -, hpc₃, -, hpopped₃⟩ :=
        exists_silent hinv₂ [] hpc₂ (by simp) (by simp) (if_pos (by rw [hring₂]; exact hunmarked))
      obtain ⟨rest, halone, hrest⟩ := (((Reaches.refl t s₃).head h₃).head h₂).head h₁
      refine ⟨rest, s₃, halone, (Machine.runFrom_cons hcall).mpr hrest, hpc₃, ?_⟩
      rw [hpopped₃, hpopped₂, hpopped₁]
      exact (List.append_nil _).symm
  | cons v queue =>
      have hlt : A.taken.length < A.log.length := by
        rw [length_log, hqueue]
        exact Nat.lt_add_of_pos_right (Nat.succ_pos _)
      have hgets : Gets A t (u.after t u.ring .popRd u.popped) := by
        by_cases hwt : A.taken.length = u.ring.wt
        · refine gets_of_mark hinv₀ after_self hwt ?_
          rcases hinv.pending u.ring.wt (Nat.le_refl _) (hwt ▸ hlt) with ⟨t', ht'⟩ | hmark | ⟨t', ht'⟩
          · rw [hquiet t'] at ht'
            cases ht'
          · exact hmark
          · rw [hquiet t'] at ht'
            cases ht'
        · exact gets_of_popRd hinv₀ after_self (Nat.lt_of_le_of_ne hinv.read hwt)
      obtain ⟨u', w, ⟨rest, halone, hrest⟩, hidle, hw, hgot⟩ := hgets
      have hv : A.log[A.taken.length]? = some v := by simp [BoundedFifo.State.log, hqueue]
      obtain rfl : w = v := Option.some.inj (hw.symm.trans hv)
      exact ⟨rest, u', halone, (Machine.runFrom_cons hcall).mpr hrest, hidle, hgot⟩

theorem unicast_pop_of_quiet_leftBehind : ∃ u, (machine Bool 1).run leftBehind = some u ∧
    u.ring.wt < u.ring.ct ∧
    ∃ A, (BoundedFifo.machine Bool (Data 1) 255).run ((machine Bool 1).events event leftBehind) =
      some A ∧
      ∃ rest u', Alone false rest ∧ (machine Bool 1).runFrom u (.pop false :: rest) = some u' ∧
        u'.threads false = .idle ∧ u'.popped false = u.popped false ++ A.queue.head?.toList := by
  have hany : ((machine Bool 1).run leftBehind).any (fun u => decide
      (u.ring.wt < u.ring.ct ∧ u.threads false = .idle ∧ u.threads true = .idle)) = true := by decide
  obtain ⟨u, hrun, hbehind, hfalse, htrue⟩ := Machine.exists_of_any hany
  refine ⟨u, hrun, hbehind, unicast_pop_of_quiet hrun (by decide) (fun t => ?_) false⟩
  cases t with
  | false => exact hfalse
  | true => exact htrue

end

end DzIpc.LibIpc.UnicastMany
