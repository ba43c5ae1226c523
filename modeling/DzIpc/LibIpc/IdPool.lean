import Mathlib.Data.List.Range
import Mathlib.Data.List.Nodup
import Mathlib.Data.List.Perm.Subperm
import Mathlib.Tactic.Common

/-!
# `id_pool`: the free list of chunk ids

The pool hands out the ids `0 … max_count - 1` from a singly linked free list that lives in
the array `next_`, with its head in `cursor_`; `max_count` is `large_msg_cache = 32`.  The
shared segment starts zeroed, and `prepare` turns the zeroed pool into the full list.

`FreeList p l` says that following `next_` from `cursor_` visits exactly the list `l`,
without repetition, and then stops.  `acquire_freeList` and `release_freeList` are the two
operations on that list: pop and push; `Usable.acquire` and `Usable.release` state them for
the list a pool in use represents.
-/

namespace DzIpc.LibIpc

/-- `id_pool::max_count`: `min(large_msg_cache, 255)`. -/
def maxCount : ℕ := 32

/-- `id_pool`: the array `next_` is a function on indices below `max_count`. -/
structure IdPool where
  next : ℕ → ℕ
  cursor : ℕ
  prepared : Bool

namespace IdPool

/-- The zeroed shared segment. -/
def zeroed : IdPool := ⟨fun _ => 0, 0, false⟩

/-- `invalid()`: the whole object compares equal to zeroed memory. -/
def invalid (p : IdPool) : Bool :=
  p.cursor = 0 ∧ p.prepared = false ∧ ∀ i < maxCount, p.next i = 0

/-- `init()`: link every id to its successor. -/
def init (p : IdPool) : IdPool :=
  { p with next := fun i => if i < maxCount then i + 1 else p.next i }

/-- `prepare()`. -/
def prepare (p : IdPool) : IdPool :=
  { (if !p.prepared && p.invalid then p.init else p) with prepared := true }

/-- `acquire()`: `none` stands for the returned `-1`. -/
def acquire (p : IdPool) : Option ℕ × IdPool :=
  if p.cursor = maxCount then (none, p)
  else (some p.cursor, { p with cursor := p.next p.cursor })

/-- `release(id)` for an id that is not negative. -/
def release (p : IdPool) (id : ℕ) : IdPool :=
  { p with next := Function.update p.next id p.cursor, cursor := id }

/-- The ids met by following `next_` from an index, at most `fuel` of them. -/
def follow (next : ℕ → ℕ) : ℕ → ℕ → List ℕ
  | 0, _ => []
  | fuel + 1, c => if c < maxCount then c :: follow next fuel (next c) else []

/-- The ids in the free list of the pool, once it is prepared. -/
def freeIds (p : IdPool) : List ℕ :=
  follow p.prepare.next maxCount p.prepare.cursor

/-- Following `next` from `c` visits `l` and then leaves the array at `max_count`. -/
def Linked (next : ℕ → ℕ) : ℕ → List ℕ → Prop
  | c, [] => c = maxCount
  | c, x :: rest => c = x ∧ x < maxCount ∧ Linked next (next x) rest

/-- The prepared pool's free list is `l`. -/
structure FreeList (p : IdPool) (l : List ℕ) : Prop where
  linked : Linked p.prepare.next p.prepare.cursor l
  nodup : l.Nodup

/-- What holds of a pool in use: it is still zeroed or has been prepared, and it represents
a free list. -/
structure Usable (p : IdPool) : Prop where
  prepared : p = zeroed ∨ p.prepared = true
  freeList : FreeList p p.freeIds

@[simp] theorem prepare_prepared (p : IdPool) : p.prepare.prepared = true := rfl

theorem prepare_of_prepared {p : IdPool} (h : p.prepared = true) : p.prepare = p := by
  cases p
  simp_all [prepare]

@[simp] theorem prepare_prepare (p : IdPool) : p.prepare.prepare = p.prepare :=
  prepare_of_prepared (prepare_prepared p)

@[simp] theorem freeIds_prepare (p : IdPool) : p.prepare.freeIds = p.freeIds := by
  simp [freeIds]

theorem freeList_prepare {p : IdPool} {l : List ℕ} : FreeList p.prepare l ↔ FreeList p l := by
  constructor
  · exact fun h => ⟨by simpa using h.linked, h.nodup⟩
  · exact fun h => ⟨by simpa using h.linked, h.nodup⟩

theorem Linked.lt {next : ℕ → ℕ} {l : List ℕ} :
    ∀ {c : ℕ}, Linked next c l → ∀ x ∈ l, x < maxCount := by
  induction l with
  | nil => simp
  | cons y rest ih =>
      intro c h x hx
      obtain ⟨-, hy, hrest⟩ := h
      rcases List.mem_cons.mp hx with rfl | hx
      · exact hy
      · exact ih hrest x hx

/-- Changing an entry off the list does not change the list. -/
theorem Linked.update {next : ℕ → ℕ} {l : List ℕ} {id : ℕ} (hid : id ∉ l) (value : ℕ) :
    ∀ {c : ℕ}, Linked next c l → Linked (Function.update next id value) c l := by
  induction l with
  | nil => exact fun h => h
  | cons y rest ih =>
      intro c h
      obtain ⟨hc, hy, hrest⟩ := h
      simp only [List.mem_cons, not_or] at hid
      refine ⟨hc, hy, ?_⟩
      rw [Function.update_of_ne (fun h => hid.1 h.symm)]
      exact ih hid.2 hrest

theorem follow_of_linked {next : ℕ → ℕ} {l : List ℕ} :
    ∀ {c fuel : ℕ}, Linked next c l → l.length ≤ fuel → follow next fuel c = l := by
  induction l with
  | nil =>
      intro c fuel h _
      cases fuel with
      | zero => rfl
      | succ fuel => simp [follow, show c = maxCount from h]
  | cons y rest ih =>
      intro c fuel h hlen
      obtain ⟨rfl, hy, hrest⟩ := h
      cases fuel with
      | zero => simp at hlen
      | succ fuel =>
          simp only [List.length_cons, Nat.add_le_add_iff_right] at hlen
          simp [follow, hy, ih hrest hlen]

theorem FreeList.length_le {p : IdPool} {l : List ℕ} (h : FreeList p l) :
    l.length ≤ maxCount := by
  have hsub : l ⊆ List.range maxCount := fun x hx => List.mem_range.mpr (h.linked.lt x hx)
  simpa using (List.subperm_of_subset h.nodup hsub).length_le

/-- The executable free list is the list the pool represents. -/
theorem FreeList.freeIds_eq {p : IdPool} {l : List ℕ} (h : FreeList p l) : p.freeIds = l :=
  follow_of_linked h.linked h.length_le

theorem linked_range (next : ℕ → ℕ) (hnext : ∀ i < maxCount, next i = i + 1) :
    ∀ n c, c + n = maxCount → Linked next c (List.range' c n) := by
  intro n
  induction n with
  | zero => exact fun c h => h
  | succ n ih =>
      intro c h
      refine ⟨rfl, by omega, ?_⟩
      rw [hnext c (by omega)]
      exact ih (c + 1) (by omega)

/-- The zeroed segment represents the list of all ids. -/
theorem freeList_zeroed : FreeList zeroed (List.range' 0 maxCount) := by
  have hprepare : zeroed.prepare.next = fun i => if i < maxCount then i + 1 else 0 := by
    have hinvalid : zeroed.invalid = true := by decide
    simp only [prepare, hinvalid]
    rfl
  have hcursor : zeroed.prepare.cursor = 0 := by decide
  refine ⟨?_, List.nodup_range'⟩
  rw [hprepare, hcursor]
  exact linked_range _ (fun i hi => if_pos hi) maxCount 0 rfl

/-- `acquire` pops the free list. -/
theorem acquire_freeList {p : IdPool} {l : List ℕ} (h : FreeList p l) {id : ℕ} {q : IdPool}
    (hacq : p.prepare.acquire = (some id, q)) :
    ∃ rest, l = id :: rest ∧ q.prepared = true ∧ FreeList q rest := by
  unfold acquire at hacq
  split at hacq
  · simp at hacq
  · rename_i hcursor
    simp only [Prod.mk.injEq, Option.some.injEq] at hacq
    obtain ⟨rfl, rfl⟩ := hacq
    cases l with
    | nil => exact absurd h.linked hcursor
    | cons x rest =>
        obtain ⟨hx, _, hrest⟩ := h.linked
        obtain ⟨hnotin, hnodup⟩ := List.nodup_cons.mp h.nodup
        subst hx
        refine ⟨rest, rfl, rfl, ⟨?_, hnodup⟩⟩
        rw [prepare_of_prepared rfl]
        exact hrest

/-- `acquire` fails only on an empty free list, and then changes nothing. -/
theorem acquire_none {p q : IdPool} {l : List ℕ} (h : FreeList p l)
    (hacq : p.prepare.acquire = (none, q)) : l = [] ∧ q = p.prepare := by
  unfold acquire at hacq
  split at hacq
  · rename_i hcursor
    simp only [Prod.mk.injEq, true_and] at hacq
    refine ⟨?_, hacq.symm⟩
    cases l with
    | nil => rfl
    | cons x rest =>
        obtain ⟨hx, hlt, _⟩ := h.linked
        omega
  · simp at hacq

/-- `release` pushes an id that is not in the free list. -/
theorem release_freeList {p : IdPool} {l : List ℕ} (h : FreeList p l)
    (hprepared : p.prepared = true) {id : ℕ} (hid : id ∉ l) (hlt : id < maxCount) :
    FreeList (p.release id) (id :: l) := by
  have hrel : (p.release id).prepare = p.release id := prepare_of_prepared hprepared
  have hp : p.prepare = p := prepare_of_prepared hprepared
  refine ⟨?_, List.nodup_cons.mpr ⟨hid, h.nodup⟩⟩
  rw [hrel]
  refine ⟨rfl, hlt, ?_⟩
  have hlinked := h.linked
  rw [hp] at hlinked
  simpa [release] using hlinked.update hid p.cursor

/-! ## Usable pools -/

theorem usable_zeroed : Usable zeroed := by
  refine ⟨Or.inl rfl, ?_⟩
  rw [freeList_zeroed.freeIds_eq]
  exact freeList_zeroed

theorem usable_of_freeList {p : IdPool} {l : List ℕ} (hprepared : p.prepared = true)
    (h : FreeList p l) : Usable p := by
  refine ⟨Or.inr hprepared, ?_⟩
  rw [h.freeIds_eq]
  exact h

theorem Usable.prepare {p : IdPool} (h : Usable p) : Usable p.prepare :=
  usable_of_freeList (prepare_prepared p) (freeList_prepare.mpr h.freeList)

/-- A pool that has an id out has been prepared. -/
theorem Usable.prepared_of_out {p : IdPool} (h : Usable p) {id : ℕ} (hlt : id < maxCount)
    (hid : id ∉ p.freeIds) : p.prepared = true := by
  rcases h.prepared with rfl | hprepared
  · rw [freeList_zeroed.freeIds_eq] at hid
    exact absurd (by simp [List.mem_range'_1, hlt]) hid
  · exact hprepared

/-- `acquire` hands out the head of the free list. -/
theorem Usable.acquire {p q : IdPool} (h : Usable p) {id : ℕ}
    (hacq : p.prepare.acquire = (some id, q)) :
    Usable q ∧ p.freeIds = id :: q.freeIds ∧ id < maxCount ∧ id ∉ q.freeIds := by
  obtain ⟨rest, hlist, hprepared, hrest⟩ := acquire_freeList h.freeList hacq
  have hnodup := h.freeList.nodup
  have hlt := h.freeList.linked.lt id (by rw [hlist]; simp)
  rw [hrest.freeIds_eq]
  rw [hlist] at hnodup
  exact ⟨usable_of_freeList hprepared hrest, hlist, hlt, (List.nodup_cons.mp hnodup).1⟩

/-- `release` puts an id that is out back at the head of the free list. -/
theorem Usable.release {p : IdPool} (h : Usable p) {id : ℕ} (hlt : id < maxCount)
    (hid : id ∉ p.freeIds) :
    Usable (p.release id) ∧ (p.release id).freeIds = id :: p.freeIds := by
  have hprepared := h.prepared_of_out hlt hid
  have hlist := release_freeList h.freeList hprepared hid hlt
  exact ⟨usable_of_freeList hprepared hlist, hlist.freeIds_eq⟩

end IdPool

end DzIpc.LibIpc
