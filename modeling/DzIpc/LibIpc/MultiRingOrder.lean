import DzIpc.LibIpc.MultiRing

/-!
# Careful writers on the broadcast ring

The code has no rule that keeps a writer off a slot that another one is in, or that a reader has
not passed; it comes out right as long as the steps keep to three rules.

* A writer gets through its exchanges only with the present commit index, while no other push is
  about to advance it and no connected reader is a lap behind; and nobody still writes the slot.
* A push that goes through counts every connected reader.
* A reader takes its cursor only where the push that is about to advance the commit index counts
  it.

## Strategy

* `Logged` is the writers' side of the invariant, and `Reading` what holds of one reader.
* `writerStep_cases` says once what a writer can do, and `inv_quiet` to `inv_commit` what each of
  these does to the two sides; `inv_writerStep` puts them together.
* `slot_ne` is the one fact about positions: two of them within a lap have different slots.
-/

namespace DzIpc.LibIpc.MultiRing

variable {w nw nr : ℕ} {B : Type}

/-! ## Places -/

/-- The commit index that a writer has claimed and is about to advance. -/
def WriterPc.claiming : WriterPc w B → Option ℕ
  | .storeCt _ c => some c
  | _ => none

/-- The commit index whose slot a writer writes. -/
def WriterPc.writing : WriterPc w B → Option ℕ
  | .write _ c _ => some c
  | _ => none

/-- The commit index that a reader is popping. -/
def Reader.popping (rd : Reader w B) : Option ℕ :=
  match rd.pc with
  | .copy idx _ _ | .loadRc idx _ | .free idx _ | .lastFlag idx _ _ | .cas idx _ _ => some idx
  | _ => none

/-- What a reader has copied, all of it. -/
def Reader.copied (rd : Reader w B) : Option (Value w B) :=
  match rd.pc with
  | .loadRc _ buf | .free _ buf | .lastFlag _ buf _ | .cas _ buf _ => some buf
  | _ => none

/-- The first commit index that a reader is not done with. -/
def Reader.pos (rd : Reader w B) : ℕ := rd.popping.getD rd.cursor

/-- The reader is connected and has its cursor. -/
def Reader.joined (rd : Reader w B) : Bool :=
  rd.connected ≠ 0#32 &&
    match rd.pc with
    | .connecting => false
    | _ => true

/-! ## The rules -/

/-- `c` is the commit index, no push is about to advance it, and no reader is a lap behind. -/
def Fresh (s : State w nw nr B) (c : ℕ) : Prop :=
  s.ring.ct = c ∧ (∀ i, (s.writers i).claiming = none) ∧
    ∀ r, (s.readers r).joined → c < (s.readers r).pos + 256

instance (s : State w nw nr B) (c : ℕ) : Decidable (Fresh s c) :=
  inferInstanceAs (Decidable (_ ∧ _ ∧ _))

/-- What a push meets that has claimed `c`. -/
def Claimable (s : State w nw nr B) (c : ℕ) : Prop :=
  Fresh s c ∧ (∀ i, ∀ d ∈ (s.writers i).writing, d % 256 ≠ c % 256) ∧
    ∀ r, (s.readers r).joined → Mask.Within (s.readers r).connected (s.ring.slot c).rc.rem

instance (s : State w nw nr B) (c : ℕ) : Decidable (Claimable s c) :=
  inferInstanceAs (Decidable (_ ∧ _ ∧ _))

/-- The rules, for a step of a writer at the given place. -/
def WriterPc.Careful (s : State w nw nr B) (spurious : Bool) : WriterPc w B → Prop
  | .cas _ _ _ _ c rc => spurious = false ∧ (s.ring.slot c).rc = rc → Fresh s c
  | .check call _ epoch c => (call = .force ∨ spurious = false) ∧ s.ring.epoch = epoch → Claimable s c
  | _ => True

/-- The rules, for a step of a reader. -/
def Reader.Careful (s : State w nw nr B) (rd : Reader w B) : Prop :=
  match rd.pc with
  | .connecting => ∀ i, ∀ c ∈ (s.writers i).claiming,
      Mask.Within rd.connected (s.ring.slot c).rc.rem
  | _ => True

/-- The rules. -/
def Careful (s : State w nw nr B) : Action w nw nr B → Prop
  | .writer i spurious => (s.writers i).Careful s spurious
  | .reader r _ => (s.readers r).Careful s
  | _ => True

/-! ## Slots -/

section

variable (q : ElemArray w B) (c d : ℕ)

theorem slot_setRc (rc : Rc) : (q.setRc c rc).slot d
    = if indexOf d = indexOf c then { q.slot d with rc } else q.slot d := by
  unfold ElemArray.setRc ElemArray.slot
  by_cases h : indexOf d = indexOf c <;> simp [h]

theorem slot_setFlag (flag : ℕ) : (q.setFlag c flag).slot d
    = if indexOf d = indexOf c then { q.slot d with flag } else q.slot d := by
  unfold ElemArray.setFlag ElemArray.slot
  by_cases h : indexOf d = indexOf c <;> simp [h]

theorem slot_setWord (j : Fin w) (b : B) : (q.setWord c j b).slot d
    = if indexOf d = indexOf c
      then { q.slot d with data := Function.update (q.slot d).data j b } else q.slot d := by
  unfold ElemArray.setWord ElemArray.slot
  by_cases h : indexOf d = indexOf c <;> simp [h]

@[simp] theorem setRc_flag (rc : Rc) : ((q.setRc c rc).slot d).flag = (q.slot d).flag := by
  rw [slot_setRc]
  split <;> rfl

@[simp] theorem setRc_data (rc : Rc) : ((q.setRc c rc).slot d).data = (q.slot d).data := by
  rw [slot_setRc]
  split <;> rfl

@[simp] theorem setFlag_rc (flag : ℕ) : ((q.setFlag c flag).slot d).rc = (q.slot d).rc := by
  rw [slot_setFlag]
  split <;> rfl

@[simp] theorem setFlag_data (flag : ℕ) : ((q.setFlag c flag).slot d).data = (q.slot d).data := by
  rw [slot_setFlag]
  split <;> rfl

@[simp] theorem setWord_rc (j : Fin w) (b : B) : ((q.setWord c j b).slot d).rc = (q.slot d).rc := by
  rw [slot_setWord]
  split <;> rfl

@[simp] theorem setWord_flag (j : Fin w) (b : B) :
    ((q.setWord c j b).slot d).flag = (q.slot d).flag := by
  rw [slot_setWord]
  split <;> rfl

end

theorem indexOf_eq_iff {c d : ℕ} : indexOf c = indexOf d ↔ c % 256 = d % 256 := by
  simp [indexOf]

/-- Two positions within a lap have different slots. -/
theorem slot_ne {c d : ℕ} (top : ℕ) (hc : c < top) (hd : d < top) (hc' : top ≤ c + 256)
    (hd' : top ≤ d + 256) (hne : c ≠ d) : indexOf c ≠ indexOf d := by
  rw [ne_eq, indexOf_eq_iff]
  omega

theorem committed_inj {c d : ℕ} (hc : c < 2 ^ 32) (hd : d < 2 ^ 32)
    (h : committed c = committed d) : c = d := by
  unfold committed at h
  omega

theorem freed_ne_committed {cur d : ℕ} (hcur : cur ≤ 2 ^ 32) (hd : d < 2 ^ 32) :
    freed cur ≠ committed d := by
  unfold freed committed
  omega

/-! ## The invariant -/

/-- `c` has not been claimed a second time: the slot is its own. -/
def InWindow (s : State w nw nr B) (c : ℕ) : Prop :=
  s.ring.ct ≤ c + 256 ∧ ∀ i v d, s.writers i = .storeCt v d → s.ring.ct < c + 256

/-- Nobody writes the slot for `c`. -/
def Unwritten (s : State w nw nr B) (c : ℕ) : Prop := ∀ i v j, s.writers i ≠ .write v c j

/-- The writers' side: the claims are in order, and a slot holds the value of its push unless it is
still being written. -/
structure Logged (s : State w nw nr B) : Prop where
  ct_eq : s.ring.ct = s.log.length
  claim_eq : ∀ {i v c}, s.writers i = .storeCt v c → c = s.ring.ct
  claim_unique : ∀ {i k v v' c c'}, s.writers i = .storeCt v c → s.writers k = .storeCt v' c' → i = k
  write_log : ∀ {i v c j}, s.writers i = .write v c j → s.log[c]? = some v
  write_window : ∀ {i v c j}, s.writers i = .write v c j → InWindow s c
  write_unique : ∀ {i k v v' c j j'},
    s.writers i = .write v c j → s.writers k = .write v' c j' → i = k
  written : ∀ {i v c j}, s.writers i = .write v c j →
    ∀ l : Fin w, l.val < j → (s.ring.slot c).data l = v l
  data : ∀ {c v}, s.log[c]? = some v → InWindow s c → Unwritten s c → (s.ring.slot c).data = v
  flag : ∀ {d}, d < 2 ^ 32 → (s.ring.slot d).flag = committed d → d < s.ring.ct ∧ Unwritten s d

/-- The reader's side: the slots from its position on are its own and count it, and what it copies
is what was pushed. -/
structure Reading (s : State w nw nr B) (rd : Reader w B) : Prop where
  pos_le : rd.pos ≤ s.ring.ct
  received : List.Sublist rd.received (s.log.take rd.pos)
  popped : ∀ {idx}, rd.popping = some idx →
    rd.cursor = idx + 1 ∧ idx < s.ring.ct ∧ rd.joined ∧ Unwritten s idx
  window : rd.joined → InWindow s rd.pos
  rem : rd.joined → ∀ c, rd.pos ≤ c → c < s.ring.ct →
    Mask.Within rd.connected (s.ring.slot c).rc.rem
  rem_claim : rd.joined → ∀ i v c, s.writers i = .storeCt v c →
    Mask.Within rd.connected (s.ring.slot c).rc.rem
  flag : rd.joined → ∀ c, rd.cursor ≤ c → c < s.ring.ct → Unwritten s c →
    (s.ring.slot c).flag = committed c
  copied_part : ∀ {idx j buf}, rd.pc = .copy idx j buf →
    ∀ v, s.log[idx]? = some v → ∀ l : Fin w, l.val < j → buf l = v l
  copied_all : ∀ {idx buf}, rd.popping = some idx → rd.copied = some buf → s.log[idx]? = some buf
  loaded : ∀ {idx buf rc}, rd.pc = .lastFlag idx buf rc ∨ rd.pc = .cas idx buf rc →
    Mask.Within (s.ring.slot idx).rc.rem rc.rem
  last : ∀ {idx buf rc}, rd.pc = .lastFlag idx buf rc → rc.rem &&& ~~~rd.connected = 0#32
  counted : ∀ idx buf, rd.pc ≠ .free idx buf

/-- Every connected reader has a bit of its own. -/
structure OwnBits (s : State w nw nr B) : Prop where
  single : ∀ r, (s.readers r).connected ≠ 0#32 →
    Mask.Single (s.readers r).connected ∧ Mask.Within (s.readers r).connected s.ring.cc
  apart : ∀ r k, r ≠ k → (s.readers r).connected &&& (s.readers k).connected = 0#32

/-- The invariant. -/
structure Inv (s : State w nw nr B) : Prop where
  logged : Logged s
  reading : ∀ r, Reading s (s.readers r)
  ownBits : OwnBits s

section

variable {s t : State w nw nr B} {i : Fin nw} {r : Fin nr} {rd : Reader w B}

theorem Reader.pos_of_popping {idx : ℕ} (h : rd.popping = some idx) : rd.pos = idx := by
  rw [Reader.pos, h]
  rfl

/-! ## What leaves the invariant alone -/

/-- The same claims and the same slots under way. -/
structure SameWriters (s t : State w nw nr B) : Prop where
  claims : ∀ i v c, t.writers i = .storeCt v c ↔ s.writers i = .storeCt v c
  writes : ∀ i v c j, t.writers i = .write v c j ↔ s.writers i = .write v c j

theorem SameWriters.refl_of (h : t.writers = s.writers) : SameWriters s t :=
  ⟨fun _ _ _ => by rw [h], fun _ _ _ _ => by rw [h]⟩

/-- A step of a writer that is in neither of the two places, nor gets there. -/
theorem SameWriters.quiet {out : ElemArray w B × WriterPc w B}
    (h : (s.writers i).claiming = none ∧ (s.writers i).writing = none)
    (h' : out.2.claiming = none ∧ out.2.writing = none) :
    SameWriters s (s.withWriter i out) := by
  constructor
  · intro k v c
    by_cases hk : k = i
    · subst hk
      simp only [State.withWriter, Function.update_self]
      constructor
      · intro heq
        rw [heq] at h'
        nomatch h'.1
      · intro heq
        rw [heq] at h
        nomatch h.1
    · simp only [State.withWriter, Function.update_of_ne hk]
  · intro k v c j
    by_cases hk : k = i
    · subst hk
      simp only [State.withWriter, Function.update_self]
      constructor
      · intro heq
        rw [heq] at h'
        nomatch h'.2
      · intro heq
        rw [heq] at h
        nomatch h.2
    · simp only [State.withWriter, Function.update_of_ne hk]

theorem SameWriters.unwritten (h : SameWriters s t) (c : ℕ) : Unwritten t c ↔ Unwritten s c := by
  unfold Unwritten
  simp only [ne_eq, h.writes]

/-- The window depends on the commit index and on the claims. -/
theorem inWindow_congr (hct : t.ring.ct = s.ring.ct)
    (hclaims : ∀ i v c, t.writers i = .storeCt v c ↔ s.writers i = .storeCt v c) (c : ℕ) :
    InWindow t c ↔ InWindow s c := by
  unfold InWindow
  simp only [hct, hclaims]

theorem Logged.congr (h : Logged s) (hsame : SameWriters s t) (hct : t.ring.ct = s.ring.ct)
    (hlog : t.log = s.log) (hflag : ∀ c, (t.ring.slot c).flag = (s.ring.slot c).flag ∨
      ∀ d < 2 ^ 32, (t.ring.slot c).flag ≠ committed d)
    (hdata : ∀ c, (t.ring.slot c).data = (s.ring.slot c).data) : Logged t where
  ct_eq := by rw [hct, hlog, h.ct_eq]
  claim_eq hc := by
    rw [hct]
    exact h.claim_eq ((hsame.claims _ _ _).mp hc)
  claim_unique hc hc' := h.claim_unique ((hsame.claims _ _ _).mp hc) ((hsame.claims _ _ _).mp hc')
  write_log hw := by
    rw [hlog]
    exact h.write_log ((hsame.writes _ _ _ _).mp hw)
  write_window hw :=
    (inWindow_congr hct hsame.claims _).mpr (h.write_window ((hsame.writes _ _ _ _).mp hw))
  write_unique hw hw' :=
    h.write_unique ((hsame.writes _ _ _ _).mp hw) ((hsame.writes _ _ _ _).mp hw')
  written hw l hl := by
    rw [hdata]
    exact h.written ((hsame.writes _ _ _ _).mp hw) l hl
  data hv hwindow hun := by
    rw [hdata]
    rw [hlog] at hv
    exact h.data hv ((inWindow_congr hct hsame.claims _).mp hwindow) ((hsame.unwritten _).mp hun)
  flag := by
    intro d hd hd'
    rw [hct, hsame.unwritten]
    rcases hflag d with heq | hne
    · exact h.flag hd (heq ▸ hd')
    · exact absurd hd' (hne d hd)

/-- What another party may do while a reader is on its way: the slots that it is not done with
keep counting it and lose bits at most, and those before it keep their flags. -/
theorem Reading.mono (h : Reading s rd)
    (hclaims : ∀ i v c, t.writers i = .storeCt v c ↔ s.writers i = .storeCt v c)
    (hunwritten : ∀ c, Unwritten t c ↔ Unwritten s c)
    (hct : t.ring.ct = s.ring.ct) (hlog : t.log = s.log)
    (hrem : rd.joined → ∀ c, rd.pos ≤ c → c < s.ring.ct →
      Mask.Within rd.connected (s.ring.slot c).rc.rem →
        Mask.Within rd.connected (t.ring.slot c).rc.rem ∧
          Mask.Within (t.ring.slot c).rc.rem (s.ring.slot c).rc.rem)
    (hclaim : rd.joined → ∀ i v c, s.writers i = .storeCt v c →
      (t.ring.slot c).rc = (s.ring.slot c).rc)
    (hflag : rd.joined → ∀ c, rd.cursor ≤ c → c < s.ring.ct →
      (t.ring.slot c).flag = (s.ring.slot c).flag) : Reading t rd where
  pos_le := by
    rw [hct]
    exact h.pos_le
  received := by
    rw [hlog]
    exact h.received
  popped hidx := by
    rw [hct, hunwritten]
    exact h.popped hidx
  window hj := (inWindow_congr hct hclaims _).mpr (h.window hj)
  rem hj c hc hlt := by
    rw [hct] at hlt
    exact (hrem hj c hc hlt (h.rem hj c hc hlt)).1
  rem_claim hj i v c hc := by
    rw [hclaims] at hc
    rw [hclaim hj i v c hc]
    exact h.rem_claim hj i v c hc
  flag hj c hc hlt hun := by
    rw [hct] at hlt
    rw [hunwritten] at hun
    rw [hflag hj c hc hlt]
    exact h.flag hj c hc hlt hun
  copied_part hpc := by
    rw [hlog]
    exact h.copied_part hpc
  copied_all hidx hbuf := by
    rw [hlog]
    exact h.copied_all hidx hbuf
  loaded := by
    intro idx buf rc hpc
    have hidx : rd.popping = some idx := by
      unfold Reader.popping
      rcases hpc with hpc | hpc <;> rw [hpc]
    obtain ⟨-, hlt, hj, -⟩ := h.popped hidx
    have hpos := Reader.pos_of_popping hidx
    have hown := h.rem hj idx (Nat.le_of_eq hpos) hlt
    exact (hrem hj idx (Nat.le_of_eq hpos) hlt hown).2.trans (h.loaded hpc)
  last := h.last
  counted := h.counted

/-- A reader is done with nothing at or behind its cursor. -/
theorem Reading.pos_le_cursor (h : Reading s rd) : rd.pos ≤ rd.cursor := by
  cases hpop : rd.popping with
  | none =>
      rw [Reader.pos, hpop]
      exact Nat.le_refl _
  | some idx =>
      rw [Reader.pos_of_popping hpop, (h.popped hpop).1]
      exact Nat.le_succ idx

/-- The slots of a reader's window are not that of a fresh commit index. -/
theorem Fresh.slot_ne {c d : ℕ} (hfresh : Fresh s d) (hj : (s.readers r).joined)
    (hc : (s.readers r).pos ≤ c) (hlt : c < s.ring.ct) : indexOf c ≠ indexOf d := by
  obtain ⟨rfl, -, hlap⟩ := hfresh
  have hnear := hlap r hj
  refine MultiRing.slot_ne (s.ring.ct + 1) (by omega) (by omega) (by omega) (by omega)
    (Nat.ne_of_lt hlt)

end

/-! ## The steps of a writer -/

section

variable {s : State w nw nr B} {i : Fin nw} {spurious : Bool}

/-- What a writer can do. -/
inductive WriterStep (q : ElemArray w B) (spurious : Bool) :
    WriterPc w B → ElemArray w B × WriterPc w B → Prop
  /-- It loads, or gives up, or raises the epoch. -/
  | quiet {pc pc' : WriterPc w B} (epoch : BitVec 8)
      (h : pc.claiming = none ∧ pc.writing = none)
      (h' : pc'.claiming = none ∧ pc'.writing = none) :
      WriterStep q spurious pc ({ q with epoch }, pc')
  /-- It exchanges `rc_`. -/
  | exchange {call : Call} {v : Value w B} {epoch : BitVec 8} {cc : Cc} {c : ℕ} {rc : Rc}
      (hreal : spurious = false) (hrc : (q.slot c).rc = rc) :
      WriterStep q spurious (.cas call v epoch cc c rc)
        (q.setRc c ⟨cc, rc.ic + 1#24, epoch⟩, .check call v epoch c)
  /-- It has the slot. -/
  | claim {call : Call} {v : Value w B} {epoch : BitVec 8} {c : ℕ}
      (hreal : call = .force ∨ spurious = false) (hepoch : q.epoch = epoch) :
      WriterStep q spurious (.check call v epoch c) (q, .storeCt v c)
  /-- It advances the commit index. -/
  | advance {v : Value w B} {c : ℕ} :
      WriterStep q spurious (.storeCt v c) ({ q with ct := (c + 1) % 2 ^ 32 }, .write v c 0)
  /-- It writes a word. -/
  | word {v : Value w B} {c j : ℕ} (hj : j < w) :
      WriterStep q spurious (.write v c j) (q.setWord c ⟨j, hj⟩ (v ⟨j, hj⟩), .write v c (j + 1))
  /-- It commits. -/
  | commit {v : Value w B} {c j : ℕ} (hj : w ≤ j) :
      WriterStep q spurious (.write v c j) (q.setFlag c (committed c), .idle)

theorem failed_quiet (call : Call) (v : Value w B) :
    (WriterPc.failed call v).claiming = none ∧ (WriterPc.failed call v).writing = none := by
  unfold WriterPc.failed
  split <;> exact ⟨rfl, rfl⟩

/-- A step of a writer is one of these. -/
theorem writerStep_cases {q : ElemArray w B} {pc : WriterPc w B}
    {out : ElemArray w B × WriterPc w B} (h : writerStep q spurious pc = some out) :
    WriterStep q spurious pc out := by
  cases pc with
  | idle => nomatch h
  | enter call v => cases call <;> cases h <;> exact .quiet _ ⟨rfl, rfl⟩ ⟨rfl, rfl⟩
  | readCc call v epoch =>
      unfold writerStep at h
      dsimp only at h
      split at h <;> cases h
      · exact .quiet _ ⟨rfl, rfl⟩ (failed_quiet call v)
      · exact .quiet _ ⟨rfl, rfl⟩ ⟨rfl, rfl⟩
  | loadCt call v epoch cc =>
      cases h
      exact .quiet _ ⟨rfl, rfl⟩ ⟨rfl, rfl⟩
  | loadRc call v epoch cc curCt =>
      unfold writerStep at h
      dsimp only at h
      split at h
      · cases h
        exact .quiet _ ⟨rfl, rfl⟩ ⟨rfl, rfl⟩
      · split at h
        · cases h
          exact .quiet _ ⟨rfl, rfl⟩ (failed_quiet call v)
        · split at h <;> cases h <;> exact .quiet _ ⟨rfl, rfl⟩ ⟨rfl, rfl⟩
  | loadFlag call v epoch cc curCt rc =>
      unfold writerStep at h
      dsimp only at h
      split at h <;> cases h
      · exact .quiet _ ⟨rfl, rfl⟩ (failed_quiet call v)
      · exact .quiet _ ⟨rfl, rfl⟩ ⟨rfl, rfl⟩
  | cas call v epoch cc curCt rc =>
      unfold writerStep at h
      dsimp only at h
      split at h <;> cases h
      · rename_i hreal
        exact .exchange hreal.1 hreal.2
      · exact .quiet _ ⟨rfl, rfl⟩ ⟨rfl, rfl⟩
  | check call v epoch curCt =>
      cases call with
      | force =>
          unfold writerStep at h
          dsimp only at h
          split at h <;> cases h
          · rename_i hepoch
            exact .claim (.inl rfl) hepoch
          · exact .quiet _ ⟨rfl, rfl⟩ ⟨rfl, rfl⟩
      | push =>
          unfold writerStep at h
          dsimp only at h
          split at h <;> cases h
          · rename_i hreal
            exact .claim (.inr hreal.1) hreal.2
          · exact .quiet _ ⟨rfl, rfl⟩ ⟨rfl, rfl⟩
      | fallback =>
          unfold writerStep at h
          dsimp only at h
          split at h <;> cases h
          · rename_i hreal
            exact .claim (.inr hreal.1) hreal.2
          · exact .quiet _ ⟨rfl, rfl⟩ ⟨rfl, rfl⟩
  | storeCt v curCt =>
      cases h
      exact .advance
  | write v curCt j =>
      unfold writerStep at h
      dsimp only at h
      split at h <;> cases h
      · rename_i hj
        exact .word hj
      · rename_i hj
        exact .commit (Nat.not_lt.mp hj)

theorem logged_eq_nil {pc : WriterPc w B} (h : pc.claiming = none) : logged pc = [] := by
  cases pc <;> first | rfl | nomatch h

theorem log_withWriter (out : ElemArray w B × WriterPc w B)
    (h : (s.writers i).claiming = none) : (s.withWriter i out).log = s.log := by
  change s.log ++ logged (s.writers i) = s.log
  rw [logged_eq_nil h, List.append_nil]

/-- A step that leaves the slots alone. -/
theorem inv_quiet (hs : Inv s) {epoch : BitVec 8} {pc' : WriterPc w B}
    (h : (s.writers i).claiming = none ∧ (s.writers i).writing = none)
    (h' : pc'.claiming = none ∧ pc'.writing = none) :
    Inv (s.withWriter i ({ s.ring with epoch }, pc')) := by
  have hsame : SameWriters s (s.withWriter i ({ s.ring with epoch }, pc')) := .quiet h h'
  have hlog := log_withWriter ({ s.ring with epoch }, pc') h.1
  refine ⟨hs.logged.congr hsame rfl hlog (fun _ => .inl rfl) (fun _ => rfl), fun r => ?_,
    ⟨hs.ownBits.single, hs.ownBits.apart⟩⟩
  exact (hs.reading r).mono hsame.claims hsame.unwritten rfl hlog
    (fun _ _ _ _ hown => ⟨hown, .refl _⟩) (fun _ _ _ _ _ => rfl) (fun _ _ _ _ => rfl)

/-- The exchange of `rc_`, in a slot that no reader waits for. -/
theorem inv_exchange (hs : Inv s) {c : ℕ} {rc : Rc} {pc' : WriterPc w B} (hfresh : Fresh s c)
    (h : (s.writers i).claiming = none ∧ (s.writers i).writing = none)
    (h' : pc'.claiming = none ∧ pc'.writing = none) :
    Inv (s.withWriter i (s.ring.setRc c rc, pc')) := by
  have hsame : SameWriters s (s.withWriter i (s.ring.setRc c rc, pc')) := .quiet h h'
  have hlog := log_withWriter (s.ring.setRc c rc, pc') h.1
  refine ⟨hs.logged.congr hsame rfl hlog (fun d => .inl (setRc_flag _ _ d rc))
    (fun d => setRc_data _ _ d rc), fun r => ?_, ⟨hs.ownBits.single, hs.ownBits.apart⟩⟩
  refine (hs.reading r).mono hsame.claims hsame.unwritten rfl hlog ?_ ?_ ?_
  · intro hj d hd hlt hown
    have hother : (s.ring.setRc c rc).slot d = s.ring.slot d := by
      rw [slot_setRc, if_neg (hfresh.slot_ne hj hd hlt)]
    change Mask.Within _ ((s.ring.setRc c rc).slot d).rc.rem ∧
      Mask.Within ((s.ring.setRc c rc).slot d).rc.rem _
    rw [hother]
    exact ⟨hown, .refl _⟩
  · intro _ k v d hclaim
    have hnone := hfresh.2.1 k
    rw [hclaim] at hnone
    nomatch hnone
  · exact fun _ d _ _ => setRc_flag _ _ d rc

/-- The claim. -/
theorem inv_claim (hs : Inv s) {c : ℕ} {v : Value w B} (hclaimable : Claimable s c)
    (h : (s.writers i).claiming = none ∧ (s.writers i).writing = none) :
    Inv (s.withWriter i (s.ring, .storeCt v c)) := by
  obtain ⟨⟨rfl, hnone, hlap⟩, hslots, hcounts⟩ := hclaimable
  have hlog := log_withWriter (s.ring, .storeCt v s.ring.ct) h.1
  have hother : ∀ {k v' d}, s.writers k ≠ .storeCt v' d := by
    intro k v' d heq
    have hk := hnone k
    rw [heq] at hk
    nomatch hk
  have hclaims : ∀ {k v' d},
      (s.withWriter i (s.ring, .storeCt v s.ring.ct)).writers k = .storeCt v' d →
        k = i ∧ v' = v ∧ d = s.ring.ct := by
    intro k v' d heq
    by_cases hk : k = i
    · subst hk
      simp only [State.withWriter, Function.update_self] at heq
      cases heq
      exact ⟨rfl, rfl, rfl⟩
    · simp only [State.withWriter, Function.update_of_ne hk] at heq
      exact absurd heq hother
  have hwrites : ∀ {k v' d j},
      (s.withWriter i (s.ring, .storeCt v s.ring.ct)).writers k = .write v' d j →
        s.writers k = .write v' d j := by
    intro k v' d j heq
    by_cases hk : k = i
    · subst hk
      simp only [State.withWriter, Function.update_self] at heq
      nomatch heq
    · simpa only [State.withWriter, Function.update_of_ne hk] using heq
  have hunwritten : ∀ d, Unwritten (s.withWriter i (s.ring, .storeCt v s.ring.ct)) d ↔
      Unwritten s d := by
    intro d
    constructor
    · intro hun k v' j heq
      refine hun k v' j ?_
      by_cases hk : k = i
      · subst hk
        rw [heq] at h
        nomatch h.2
      · simpa only [State.withWriter, Function.update_of_ne hk] using heq
    · exact fun hun k v' j heq => hun k v' j (hwrites heq)
  have hwindow : ∀ d, InWindow (s.withWriter i (s.ring, .storeCt v s.ring.ct)) d → InWindow s d :=
    fun d hd => ⟨hd.1, fun k v' d' heq => absurd heq hother⟩
  refine ⟨?_, fun r => ?_, ⟨hs.ownBits.single, hs.ownBits.apart⟩⟩
  · refine
      { ct_eq := by rw [hlog]; exact hs.logged.ct_eq
        claim_eq := fun heq => (hclaims heq).2.2
        claim_unique := fun heq heq' => (hclaims heq).1.trans (hclaims heq').1.symm
        write_log := fun heq => by rw [hlog]; exact hs.logged.write_log (hwrites heq)
        write_window := ?_
        write_unique := fun heq heq' => hs.logged.write_unique (hwrites heq) (hwrites heq')
        written := fun heq => hs.logged.written (hwrites heq)
        data := fun hv hin hun => hs.logged.data (hlog ▸ hv) (hwindow _ hin) ((hunwritten _).mp hun)
        flag := ?_ }
    · intro k v' d j heq
      have hold := hs.logged.write_window (hwrites heq)
      have hlt := (List.getElem?_eq_some_iff.mp (hs.logged.write_log (hwrites heq))).1
      have hct := hs.logged.ct_eq
      have hne : d % 256 ≠ s.ring.ct % 256 := hslots k d (by rw [hwrites heq]; rfl)
      refine ⟨hold.1, fun k' v'' d' _ => ?_⟩
      have hle := hold.1
      change s.ring.ct < d + 256
      omega
    · intro d hd hflag
      rw [hunwritten]
      exact hs.logged.flag hd hflag
  · have hold := hs.reading r
    exact
      { pos_le := hold.pos_le
        received := by rw [hlog]; exact hold.received
        popped := fun hidx => by rw [hunwritten]; exact hold.popped hidx
        window := fun hj => ⟨(hold.window hj).1, fun _ _ _ _ => hlap r hj⟩
        rem := hold.rem
        rem_claim := fun hj k v' d heq => by
          obtain ⟨-, -, rfl⟩ := hclaims heq
          exact hcounts r hj
        flag := fun hj d hd hlt hun => hold.flag hj d hd hlt ((hunwritten d).mp hun)
        copied_part := fun hpc => by rw [hlog]; exact hold.copied_part hpc
        copied_all := fun hidx hbuf => by rw [hlog]; exact hold.copied_all hidx hbuf
        loaded := hold.loaded
        last := hold.last
        counted := hold.counted }

/-- The commit index is advanced, and the push is in the log. -/
theorem inv_advance (hs : Inv s) {c : ℕ} {v : Value w B} (hpc : s.writers i = .storeCt v c)
    (hsmall : s.log.length + 1 < 2 ^ 32) :
    Inv (s.withWriter i ({ s.ring with ct := (c + 1) % 2 ^ 32 }, .write v c 0)) := by
  obtain rfl := hs.logged.claim_eq hpc
  have hct : (s.ring.ct + 1) % 2 ^ 32 = s.ring.ct + 1 :=
    Nat.mod_eq_of_lt (by rw [hs.logged.ct_eq]; exact hsmall)
  rw [hct]
  generalize ht : s.withWriter i ({ s.ring with ct := s.ring.ct + 1 }, .write v s.ring.ct 0) = t
  have hring : t.ring.ct = s.ring.ct + 1 := by rw [← ht]; rfl
  have hslot : ∀ d, t.ring.slot d = s.ring.slot d := fun d => by rw [← ht]; rfl
  have hreaders : t.readers = s.readers := by rw [← ht]; rfl
  have hcc : t.ring.cc = s.ring.cc := by rw [← ht]; rfl
  have hlog : t.log = s.log ++ [v] := by
    rw [← ht]
    change s.log ++ logged (s.writers i) = _
    rw [hpc]
    rfl
  have hself : t.writers i = .write v s.ring.ct 0 := by
    rw [← ht]
    exact Function.update_self _ _ _
  have hother : ∀ {k}, k ≠ i → t.writers k = s.writers k := fun hk => by
    rw [← ht]
    exact Function.update_of_ne hk _ _
  clear ht
  have hclaims : ∀ {k v' d}, t.writers k ≠ .storeCt v' d := by
    intro k v' d heq
    by_cases hk : k = i
    · subst hk
      rw [hself] at heq
      nomatch heq
    · rw [hother hk] at heq
      exact hk (hs.logged.claim_unique heq hpc)
  have hwrites : ∀ {k v' d j}, t.writers k = .write v' d j →
      (k = i ∧ v' = v ∧ d = s.ring.ct ∧ j = 0) ∨ (k ≠ i ∧ s.writers k = .write v' d j) := by
    intro k v' d j heq
    by_cases hk : k = i
    · subst hk
      rw [hself] at heq
      cases heq
      exact .inl ⟨rfl, rfl, rfl, rfl⟩
    · rw [hother hk] at heq
      exact .inr ⟨hk, heq⟩
  have hunwritten : ∀ d, Unwritten t d ↔ d ≠ s.ring.ct ∧ Unwritten s d := by
    intro d
    constructor
    · intro hun
      refine ⟨?_, fun k v' j heq => ?_⟩
      · rintro rfl
        exact hun i v 0 hself
      · have hk : k ≠ i := by
          rintro rfl
          rw [hpc] at heq
          nomatch heq
        exact hun k v' j ((hother hk).trans heq)
    · rintro ⟨hne, hun⟩ k v' j heq
      rcases hwrites heq with ⟨-, -, rfl, -⟩ | ⟨-, heq⟩
      · exact hne rfl
      · exact hun k v' j heq
  have hwindow : ∀ d, InWindow t d ↔ InWindow s d := by
    intro d
    constructor
    · intro hd
      have hle := hd.1
      rw [hring] at hle
      exact ⟨by omega, fun k v' d' _ => by omega⟩
    · intro hd
      have hlt := hd.2 i v s.ring.ct hpc
      exact ⟨by rw [hring]; omega, fun k v' d' heq => absurd heq hclaims⟩
  have hold : ∀ {d : ℕ} {v' : Value w B}, s.log[d]? = some v' → t.log[d]? = some v' := by
    intro d v' hd
    rw [hlog, List.getElem?_append_left (List.getElem?_eq_some_iff.mp hd).1, hd]
  have hbelow : ∀ {d : ℕ}, d < s.ring.ct → t.log[d]? = s.log[d]? := by
    intro d hd
    rw [hlog, List.getElem?_append_left (hs.logged.ct_eq ▸ hd)]
  have hnew : t.log[s.ring.ct]? = some v := by
    rw [hlog, hs.logged.ct_eq]
    exact List.getElem?_concat_length
  refine ⟨?_, fun r => ?_, ⟨by rw [hreaders, hcc]; exact hs.ownBits.single,
    by rw [hreaders]; exact hs.ownBits.apart⟩⟩
  · refine
      { ct_eq := by rw [hring, hlog, hs.logged.ct_eq, List.length_append, List.length_singleton]
        claim_eq := fun heq => absurd heq hclaims
        claim_unique := fun heq => absurd heq hclaims
        write_log := ?_
        write_window := ?_
        write_unique := ?_
        written := ?_
        data := ?_
        flag := ?_ }
    · intro k v' d j heq
      rcases hwrites heq with ⟨-, rfl, rfl, -⟩ | ⟨-, heq⟩
      · exact hnew
      · exact hold (hs.logged.write_log heq)
    · intro k v' d j heq
      rcases hwrites heq with ⟨-, -, rfl, -⟩ | ⟨-, heq⟩
      · exact ⟨by rw [hring]; omega, fun k v' d' heq => absurd heq hclaims⟩
      · exact (hwindow d).mpr (hs.logged.write_window heq)
    · -- the slot under way is at the new index, and the others are before it
      have hlt : ∀ {k v' d j}, s.writers k = .write v' d j → d < s.ring.ct := by
        intro k v' d j heq
        have hlog := (List.getElem?_eq_some_iff.mp (hs.logged.write_log heq)).1
        rwa [hs.logged.ct_eq]
      intro k k' v' v'' d j j' heq heq'
      rcases hwrites heq with ⟨rfl, -, rfl, -⟩ | ⟨-, heq⟩
      · rcases hwrites heq' with ⟨rfl, -, -, -⟩ | ⟨-, heq'⟩
        · rfl
        · exact absurd (hlt heq') (Nat.lt_irrefl _)
      · rcases hwrites heq' with ⟨-, -, rfl, -⟩ | ⟨-, heq'⟩
        · exact absurd (hlt heq) (Nat.lt_irrefl _)
        · exact hs.logged.write_unique heq heq'
    · intro k v' d j heq l hl
      rw [hslot]
      rcases hwrites heq with ⟨-, -, -, rfl⟩ | ⟨-, heq⟩
      · exact absurd hl (Nat.not_lt_zero _)
      · exact hs.logged.written heq l hl
    · intro d v' hd hin hun
      obtain ⟨hne, hun⟩ := (hunwritten d).mp hun
      have hlt : d < s.ring.ct := by
        have hlen := (List.getElem?_eq_some_iff.mp hd).1
        rw [hlog, List.length_append, List.length_singleton, ← hs.logged.ct_eq] at hlen
        omega
      rw [hslot]
      exact hs.logged.data (hbelow hlt ▸ hd) ((hwindow d).mp hin) hun
    · intro d hd hflag
      rw [hslot] at hflag
      obtain ⟨hlt, hun⟩ := hs.logged.flag hd hflag
      exact ⟨by rw [hring]; omega, (hunwritten d).mpr ⟨Nat.ne_of_lt hlt, hun⟩⟩
  · rw [hreaders]
    have hrd := hs.reading r
    have hpopped : ∀ {idx}, (s.readers r).popping = some idx → idx < s.ring.ct :=
      fun hidx => (hrd.popped hidx).2.1
    exact
      { pos_le := by rw [hring]; exact Nat.le_succ_of_le hrd.pos_le
        received := by
          rw [hlog, List.take_append_of_le_length (hs.logged.ct_eq ▸ hrd.pos_le)]
          exact hrd.received
        popped := fun hidx => by
          obtain ⟨hcur, hlt, hj, hun⟩ := hrd.popped hidx
          exact ⟨hcur, by rw [hring]; omega, hj, (hunwritten _).mpr ⟨Nat.ne_of_lt hlt, hun⟩⟩
        window := fun hj => (hwindow _).mpr (hrd.window hj)
        rem := fun hj d hd hlt => by
          rw [hslot]
          rw [hring] at hlt
          by_cases hnow : d = s.ring.ct
          · subst hnow
            exact hrd.rem_claim hj i v _ hpc
          · exact hrd.rem hj d hd (by omega)
        rem_claim := fun hj k v' d heq => absurd heq hclaims
        flag := fun hj d hd hlt hun => by
          obtain ⟨hne, hun⟩ := (hunwritten d).mp hun
          rw [hslot]
          rw [hring] at hlt
          exact hrd.flag hj d hd (by omega) hun
        copied_part := fun {idx j buf} hcopy v' hv' => by
          have hidx : (s.readers r).popping = some idx := by
            unfold Reader.popping
            rw [hcopy]
          rw [hbelow (hpopped hidx)] at hv'
          exact hrd.copied_part hcopy v' hv'
        copied_all := fun hidx hbuf => hold (hrd.copied_all hidx hbuf)
        loaded := fun hload => by
          rw [hslot]
          exact hrd.loaded hload
        last := hrd.last
        counted := hrd.counted }

/-- A word of the slot under way. -/
theorem inv_word (hs : Inv s) {c j : ℕ} {v : Value w B} (hpc : s.writers i = .write v c j)
    (hj : j < w) :
    Inv (s.withWriter i (s.ring.setWord c ⟨j, hj⟩ (v ⟨j, hj⟩), .write v c (j + 1))) := by
  have hidle : (s.writers i).claiming = none := by rw [hpc]; rfl
  have hlog := log_withWriter (s.ring.setWord c ⟨j, hj⟩ (v ⟨j, hj⟩), .write v c (j + 1)) hidle
  generalize ht : s.withWriter i (s.ring.setWord c ⟨j, hj⟩ (v ⟨j, hj⟩), .write v c (j + 1)) = t
    at hlog
  have hring : t.ring = s.ring.setWord c ⟨j, hj⟩ (v ⟨j, hj⟩) := by rw [← ht]; rfl
  have hreaders : t.readers = s.readers := by rw [← ht]; rfl
  have hself : t.writers i = .write v c (j + 1) := by
    rw [← ht]
    exact Function.update_self _ _ _
  have hother : ∀ {k}, k ≠ i → t.writers k = s.writers k := fun hk => by
    rw [← ht]
    exact Function.update_of_ne hk _ _
  clear ht
  have hct : t.ring.ct = s.ring.ct := by rw [hring]; rfl
  have hclaims : ∀ k v' d, t.writers k = .storeCt v' d ↔ s.writers k = .storeCt v' d := by
    intro k v' d
    by_cases hk : k = i
    · subst hk
      rw [hself, hpc]
      exact ⟨nofun, nofun⟩
    · rw [hother hk]
  have hwrites : ∀ {k v' d l}, t.writers k = .write v' d l →
      (k = i ∧ v' = v ∧ d = c ∧ l = j + 1) ∨ (k ≠ i ∧ s.writers k = .write v' d l) := by
    intro k v' d l heq
    by_cases hk : k = i
    · subst hk
      rw [hself] at heq
      cases heq
      exact .inl ⟨rfl, rfl, rfl, rfl⟩
    · rw [hother hk] at heq
      exact .inr ⟨hk, heq⟩
  -- a writer is where it was, but for the word
  have hplace : ∀ {k v' d l}, t.writers k = .write v' d l → ∃ l', s.writers k = .write v' d l' := by
    intro k v' d l heq
    rcases hwrites heq with ⟨rfl, rfl, rfl, -⟩ | ⟨-, heq⟩
    · exact ⟨j, hpc⟩
    · exact ⟨l, heq⟩
  have hunwritten : ∀ d, Unwritten t d ↔ Unwritten s d := by
    intro d
    constructor
    · intro hun k v' l heq
      by_cases hk : k = i
      · subst hk
        rw [hpc] at heq
        cases heq
        exact hun k v (j + 1) hself
      · exact hun k v' l ((hother hk).trans heq)
    · intro hun k v' l heq
      obtain ⟨l', heq'⟩ := hplace heq
      exact hun k v' l' heq'
  have hwindow := inWindow_congr hct hclaims
  have hlt : ∀ {k v' d l}, s.writers k = .write v' d l → d < s.ring.ct := by
    intro k v' d l heq
    have hlen := (List.getElem?_eq_some_iff.mp (hs.logged.write_log heq)).1
    rwa [hs.logged.ct_eq]
  -- another position of the lap has another slot
  have hdata : ∀ {d}, d < s.ring.ct → InWindow s d → d ≠ c →
      (t.ring.slot d).data = (s.ring.slot d).data := by
    intro d hd hin hne
    rw [hring, slot_setWord, if_neg]
    exact slot_ne _ hd (hlt hpc) hin.1 (hs.logged.write_window hpc).1 hne
  refine ⟨?_, fun r => ?_, ⟨by rw [hreaders, hring]; exact hs.ownBits.single,
    by rw [hreaders]; exact hs.ownBits.apart⟩⟩
  · refine
      { ct_eq := by rw [hct, hlog, hs.logged.ct_eq]
        claim_eq := fun heq => by
          rw [hct]
          exact hs.logged.claim_eq ((hclaims _ _ _).mp heq)
        claim_unique := fun heq heq' =>
          hs.logged.claim_unique ((hclaims _ _ _).mp heq) ((hclaims _ _ _).mp heq')
        write_log := fun heq => by
          obtain ⟨l', heq'⟩ := hplace heq
          rw [hlog]
          exact hs.logged.write_log heq'
        write_window := fun heq => by
          obtain ⟨l', heq'⟩ := hplace heq
          exact (hwindow _).mpr (hs.logged.write_window heq')
        write_unique := fun heq heq' => by
          obtain ⟨l, heq⟩ := hplace heq
          obtain ⟨l', heq'⟩ := hplace heq'
          exact hs.logged.write_unique heq heq'
        written := ?_
        data := ?_
        flag := ?_ }
    · intro k v' d l heq x hx
      rcases hwrites heq with ⟨-, rfl, rfl, rfl⟩ | ⟨hk, heq⟩
      · rw [hring, slot_setWord, if_pos rfl]
        dsimp only
        by_cases hxj : x = ⟨j, hj⟩
        · subst hxj
          exact Function.update_self _ _ _
        · have hxlt : x.val < j := by
            have hne : x.val ≠ j := fun h => hxj (Fin.ext h)
            omega
          rw [Function.update_of_ne hxj]
          exact hs.logged.written hpc x hxlt
      · have hne : d ≠ c := by
          rintro rfl
          exact hk (hs.logged.write_unique heq hpc)
        rw [hdata (hlt heq) (hs.logged.write_window heq) hne]
        exact hs.logged.written heq x hx
    · intro d v' hd hin hun
      rw [hlog] at hd
      rw [hunwritten] at hun
      have hin' := (hwindow d).mp hin
      have hlen := (List.getElem?_eq_some_iff.mp hd).1
      have hne : d ≠ c := by
        rintro rfl
        exact hun i v j hpc
      rw [hdata (hs.logged.ct_eq ▸ hlen) hin' hne]
      exact hs.logged.data hd hin' hun
    · intro d hd hflag
      rw [hring, setWord_flag] at hflag
      rw [hct, hunwritten]
      exact hs.logged.flag hd hflag
  · rw [hreaders]
    refine (hs.reading r).mono hclaims hunwritten hct hlog ?_ ?_ ?_
    · intro _ d _ _ hown
      rw [hring, setWord_rc]
      exact ⟨hown, .refl _⟩
    · intro _ k v' d _
      rw [hring, setWord_rc]
    · intro _ d _ _
      rw [hring, setWord_flag]

/-- The slot is committed. -/
theorem inv_commit (hs : Inv s) (hsmall : s.log.length < 2 ^ 32) {c j : ℕ} {v : Value w B}
    (hpc : s.writers i = .write v c j) (hj : w ≤ j) :
    Inv (s.withWriter i (s.ring.setFlag c (committed c), .idle)) := by
  have hidle : (s.writers i).claiming = none := by rw [hpc]; rfl
  have hlog := log_withWriter (s.ring.setFlag c (committed c), .idle) hidle
  generalize ht : s.withWriter i (s.ring.setFlag c (committed c), .idle) = t at hlog
  have hring : t.ring = s.ring.setFlag c (committed c) := by rw [← ht]; rfl
  have hreaders : t.readers = s.readers := by rw [← ht]; rfl
  have hself : t.writers i = .idle := by
    rw [← ht]
    exact Function.update_self _ _ _
  have hother : ∀ {k}, k ≠ i → t.writers k = s.writers k := fun hk => by
    rw [← ht]
    exact Function.update_of_ne hk _ _
  clear ht
  have hct : t.ring.ct = s.ring.ct := by rw [hring]; rfl
  have hclaims : ∀ k v' d, t.writers k = .storeCt v' d ↔ s.writers k = .storeCt v' d := by
    intro k v' d
    by_cases hk : k = i
    · subst hk
      rw [hself, hpc]
      exact ⟨nofun, nofun⟩
    · rw [hother hk]
  have hwrites : ∀ {k v' d l}, t.writers k = .write v' d l → k ≠ i ∧ s.writers k = .write v' d l := by
    intro k v' d l heq
    by_cases hk : k = i
    · subst hk
      rw [hself] at heq
      nomatch heq
    · rw [hother hk] at heq
      exact ⟨hk, heq⟩
  have hunwritten : ∀ d, Unwritten t d ↔ d = c ∨ Unwritten s d := by
    intro d
    constructor
    · intro hun
      by_cases hd : d = c
      · exact .inl hd
      · refine .inr fun k v' l heq => ?_
        have hk : k ≠ i := by
          rintro rfl
          rw [hpc] at heq
          cases heq
          exact hd rfl
        exact hun k v' l ((hother hk).trans heq)
    · rintro (rfl | hun) k v' l heq
      · obtain ⟨hk, heq⟩ := hwrites heq
        exact hk (hs.logged.write_unique heq hpc)
      · exact hun k v' l (hwrites heq).2
  have hwindow := inWindow_congr hct hclaims
  have hclt : c < s.ring.ct := by
    have hlen := (List.getElem?_eq_some_iff.mp (hs.logged.write_log hpc)).1
    rwa [hs.logged.ct_eq]
  have hin := hs.logged.write_window hpc
  refine ⟨?_, fun r => ?_, ⟨by rw [hreaders, hring]; exact hs.ownBits.single,
    by rw [hreaders]; exact hs.ownBits.apart⟩⟩
  · refine
      { ct_eq := by rw [hct, hlog, hs.logged.ct_eq]
        claim_eq := fun heq => by
          rw [hct]
          exact hs.logged.claim_eq ((hclaims _ _ _).mp heq)
        claim_unique := fun heq heq' =>
          hs.logged.claim_unique ((hclaims _ _ _).mp heq) ((hclaims _ _ _).mp heq')
        write_log := fun heq => by
          rw [hlog]
          exact hs.logged.write_log (hwrites heq).2
        write_window := fun heq => (hwindow _).mpr (hs.logged.write_window (hwrites heq).2)
        write_unique := fun heq heq' => hs.logged.write_unique (hwrites heq).2 (hwrites heq').2
        written := fun heq l hl => by
          rw [hring, setFlag_data]
          exact hs.logged.written (hwrites heq).2 l hl
        data := ?_
        flag := ?_ }
    · intro d v' hd hin hun
      rw [hlog] at hd
      rw [hring, setFlag_data]
      rcases (hunwritten d).mp hun with rfl | hun
      · -- all words are there
        cases (hs.logged.write_log hpc).symm.trans hd
        funext l
        exact hs.logged.written hpc l (Nat.lt_of_lt_of_le l.isLt hj)
      · exact hs.logged.data hd ((hwindow d).mp hin) hun
    · intro d hd hflag
      rw [hct, hunwritten]
      rw [hring, slot_setFlag] at hflag
      split at hflag
      · have hc : c < 2 ^ 32 := Nat.lt_trans hclt (hs.logged.ct_eq ▸ hsmall)
        obtain rfl := committed_inj hc hd hflag
        exact ⟨hclt, .inl rfl⟩
      · obtain ⟨hlt, hun⟩ := hs.logged.flag hd hflag
        exact ⟨hlt, .inr hun⟩
  · rw [hreaders]
    have hrd := hs.reading r
    exact
      { pos_le := by rw [hct]; exact hrd.pos_le
        received := by rw [hlog]; exact hrd.received
        popped := fun hidx => by
          obtain ⟨hcur, hlt, hj, hun⟩ := hrd.popped hidx
          exact ⟨hcur, by rwa [hct], hj, (hunwritten _).mpr (.inr hun)⟩
        window := fun hj => (hwindow _).mpr (hrd.window hj)
        rem := fun hj d hd hlt => by
          rw [hring, setFlag_rc]
          exact hrd.rem hj d hd (hct ▸ hlt)
        rem_claim := fun hj k v' d heq => by
          rw [hring, setFlag_rc]
          exact hrd.rem_claim hj k v' d ((hclaims _ _ _).mp heq)
        flag := fun hj d hd hlt hun => by
          rw [hct] at hlt
          rw [hring, slot_setFlag]
          by_cases hdc : d = c
          · subst hdc
            rw [if_pos rfl]
          · have hpos : (s.readers r).pos ≤ (s.readers r).cursor := by
              cases hpop : (s.readers r).popping with
              | none => rw [Reader.pos, hpop]; exact Nat.le_refl _
              | some idx =>
                  rw [Reader.pos_of_popping hpop, (hrd.popped hpop).1]
                  exact Nat.le_succ idx
            have hnear := (hrd.window hj).1
            rw [if_neg (slot_ne _ hlt hclt (by omega) hin.1 hdc)]
            exact hrd.flag hj d hd hlt (((hunwritten d).mp hun).resolve_left hdc)
        copied_part := fun hcopy => by rw [hlog]; exact hrd.copied_part hcopy
        copied_all := fun hidx hbuf => by rw [hlog]; exact hrd.copied_all hidx hbuf
        loaded := fun hload => by
          rw [hring, setFlag_rc]
          exact hrd.loaded hload
        last := hrd.last
        counted := hrd.counted }

/-- A step of a writer that keeps the rules. -/
theorem inv_writerStep (hs : Inv s) {out : ElemArray w B × WriterPc w B}
    (hsmall : (s.withWriter i out).log.length < 2 ^ 32)
    (hcareful : (s.writers i).Careful s spurious)
    (hstep : writerStep s.ring spurious (s.writers i) = some out) : Inv (s.withWriter i out) := by
  have hcases := writerStep_cases hstep
  generalize hpc : s.writers i = pc at hcareful hcases
  have hlen : s.log.length + (logged pc).length < 2 ^ 32 := by
    rw [← hpc, ← List.length_append]
    exact hsmall
  cases hcases with
  | quiet epoch h h' => exact inv_quiet hs (hpc ▸ h) h'
  | exchange hreal hrc =>
      exact inv_exchange hs (hcareful ⟨hreal, hrc⟩) (by rw [hpc]; exact ⟨rfl, rfl⟩) ⟨rfl, rfl⟩
  | claim hreal hepoch => exact inv_claim hs (hcareful ⟨hreal, hepoch⟩) (by rw [hpc]; exact ⟨rfl, rfl⟩)
  | advance => exact inv_advance hs hpc hlen
  | word hj => exact inv_word hs hpc hj
  | commit hj => exact inv_commit hs (Nat.lt_of_le_of_lt (Nat.le_add_right _ _) hlen) hpc hj

end

end DzIpc.LibIpc.MultiRing
