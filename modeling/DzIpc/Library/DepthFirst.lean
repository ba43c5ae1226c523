import Mathlib.Data.List.Chain
import Mathlib.Data.List.Nodup
import Mathlib.Logic.Relation
import Mathlib.Tactic.Common

/-!
# Sorting a graph depth first

Each node is put behind those it points to; a node that is met on the way from itself ends the
sort with an error.  Recursion is on a bound, one more than the number of nodes, which does not
run out.

* `sort_ok`: the nodes are listed once each, and in order.
* `sort_error` and `not_leads_of_sort`: the sort fails exactly on a graph with a cycle.
-/

namespace DzIpc.DepthFirst

section

variable {α : Type*}

/-- The nodes on the way, those done with, and these in the order in which they were. -/
structure Marks (α : Type*) where
  visiting : List α
  visited : List α
  sorted : List α

/-- Everything that a node points to comes before it. -/
def Ordered (next : α → List α) (l : List α) : Prop :=
  ∀ pre v post, l = pre ++ v :: post → ∀ w ∈ next v, w ∈ pre

/-- There is a way from the first node to the second. -/
def Leads (next : α → List α) : α → α → Prop := Relation.TransGen fun v w => w ∈ next v

/-- What the marks of a graph with these nodes are. -/
structure Sound (next : α → List α) (nodes : List α) (m : Marks α) : Prop where
  visited : ∀ v, v ∈ m.visited ↔ v ∈ m.sorted
  nodup : m.sorted.Nodup
  ordered : Ordered next m.sorted
  inside : ∀ v ∈ m.sorted, v ∈ nodes
  apart : ∀ v ∈ m.visiting, v ∉ m.sorted

/-- These nodes have been visited in between. -/
structure Visits (next : α → List α) (nodes : List α) (m : Marks α) (ts : List α)
    (m' : Marks α) : Prop where
  sound : Sound next nodes m'
  visiting : m'.visiting = m.visiting
  keeps : ∀ v ∈ m.sorted, v ∈ m'.sorted
  covers : ∀ t ∈ ts, t ∈ m'.sorted

/-- The nodes on the way, the last one first, each one pointed to by the one before. -/
def Path (next : α → List α) (nodes : List α) (path : List α) : Prop :=
  path.IsChain (fun v w => v ∈ next w) ∧ ∀ v ∈ path, v ∈ nodes

variable {next : α → List α} {nodes : List α} {m m' : Marks α} {t : α}

theorem Ordered.concat {l : List α} (h : Ordered next l) (ht : ∀ w ∈ next t, w ∈ l) :
    Ordered next (l ++ [t]) := by
  intro pre v post heq w hw
  cases post using List.reverseRecOn with
  | nil =>
      obtain ⟨hpre, hv⟩ := List.append_inj' heq rfl
      rw [List.singleton_inj] at hv
      subst hv
      exact hpre ▸ ht w hw
  | append_singleton post last _ =>
      have hsplit : l ++ [t] = (pre ++ v :: post) ++ [last] := by rw [heq]; simp
      exact h pre v post (List.append_inj' hsplit rfl).1 w hw

theorem sound_start (next : α → List α) (nodes : List α) : Sound next nodes ⟨[], [], []⟩ where
  visited := fun _ => Iff.rfl
  nodup := List.nodup_nil
  ordered := fun pre v post h => by simp at h
  inside := nofun
  apart := nofun

theorem Visits.nil (h : Sound next nodes m) : Visits next nodes m [] m :=
  ⟨h, rfl, fun _ hv => hv, nofun⟩

theorem Visits.cons {m'' : Marks α} {ts : List α} (h : Visits next nodes m [t] m')
    (h' : Visits next nodes m' ts m'') : Visits next nodes m (t :: ts) m'' where
  sound := h'.sound
  visiting := h'.visiting.trans h.visiting
  keeps := fun v hv => h'.keeps v (h.keeps v hv)
  covers := List.forall_mem_cons.mpr
    ⟨h'.keeps t (h.covers t List.mem_cons_self), h'.covers⟩

/-- A node met on the way from itself is on a cycle. -/
theorem Path.leads {path : List α} (h : Path next nodes (t :: path)) {v : α} (hv : v ∈ path) :
    Leads next v t := by
  have hchain : (t :: path).IsChain fun v w => Leads next w v :=
    h.1.imp fun _ _ hvw => Relation.TransGen.single hvw
  have htrans : IsTrans α fun v w => Leads next w v := ⟨fun _ _ _ h h' => h'.trans h⟩
  exact hchain.rel_cons hv

theorem Path.cons {path : List α} (h : Path next nodes (t :: path)) {w : α} (hw : w ∈ next t)
    (hnode : w ∈ nodes) : Path next nodes (w :: t :: path) :=
  ⟨List.isChain_cons_cons.mpr ⟨hw, h.1⟩, List.forall_mem_cons.mpr ⟨hnode, h.2⟩⟩

end

variable {α : Type*} [DecidableEq α]

/-! ## The sort -/

/-- Puts a node behind those it points to. -/
def visit (next : α → List α) : ℕ → Marks α → α → Except α (Marks α)
  | 0, _, t => .error t
  | fuel + 1, m, t =>
    if t ∈ m.visited then .ok m
    else if t ∈ m.visiting then .error t
    else do
      let m ← (next t).foldlM (visit next fuel) { m with visiting := t :: m.visiting }
      return {
        visiting := m.visiting.erase t
        visited := t :: m.visited
        sorted := m.sorted ++ [t] }

/-- Visits the nodes of a graph one after the other. -/
def sort (next : α → List α) (nodes : List α) : Except α (List α) := do
  let m ← nodes.foldlM (visit next (nodes.length + 1)) ⟨[], [], []⟩
  return m.sorted

variable {next : α → List α} {nodes : List α} {m m' : Marks α} {t : α}

/-- In an ordered list ways lead to the front. -/
theorem Ordered.idxOf_lt {l : List α} (h : Ordered next l) {v w : α} (hv : v ∈ l)
    (hlead : Leads next v w) : w ∈ l ∧ l.idxOf w < l.idxOf v := by
  have hone : ∀ {v w : α}, v ∈ l → w ∈ next v → w ∈ l ∧ l.idxOf w < l.idxOf v := by
    intro v w hv hw
    obtain ⟨pre, post, heq, hnot⟩ := List.eq_append_cons_of_mem hv
    have hpre : w ∈ pre := h pre v post heq w hw
    rw [heq, List.idxOf_append_of_mem hpre, List.idxOf_append_of_notMem hnot, List.idxOf_cons_self]
    exact ⟨List.mem_append_left _ hpre, List.idxOf_lt_length_of_mem hpre⟩
  induction hlead with
  | single hw => exact hone hv hw
  | tail _ hw ih =>
      obtain ⟨hmem, hlt⟩ := ih
      exact ⟨(hone hmem hw).1, (hone hmem hw).2.trans hlt⟩

/-- A list of visits, where each visit does as it should. -/
theorem visits_foldlM {fuel : ℕ}
    (ih : ∀ {m m' t}, Sound next nodes m → t ∈ nodes → visit next fuel m t = .ok m' →
      Visits next nodes m [t] m') :
    ∀ {ts : List α} {m m' : Marks α}, Sound next nodes m → (∀ t ∈ ts, t ∈ nodes) →
      ts.foldlM (visit next fuel) m = .ok m' → Visits next nodes m ts m' := by
  intro ts
  induction ts with
  | nil =>
      intro m m' h _ hfold
      cases hfold
      exact .nil h
  | cons t ts ihList =>
      intro m m' h hmem hfold
      rw [List.foldlM_cons] at hfold
      cases hmid : visit next fuel m t with
      | error e =>
          rw [hmid] at hfold
          cases hfold
      | ok mid =>
          rw [hmid] at hfold
          have hfirst := ih h (hmem t List.mem_cons_self) hmid
          exact hfirst.cons
            (ihList hfirst.sound (fun w hw => hmem w (List.mem_cons_of_mem t hw)) hfold)

variable (hclosed : ∀ v ∈ nodes, ∀ w ∈ next v, w ∈ nodes)
include hclosed

/-- **A visit that returns** has put the node behind those it points to. -/
theorem visits_visit : ∀ (fuel : ℕ) {m m' : Marks α} {t : α}, Sound next nodes m → t ∈ nodes →
    visit next fuel m t = .ok m' → Visits next nodes m [t] m' := by
  intro fuel
  induction fuel with
  | zero =>
      intro m m' t _ _ hvisit
      cases hvisit
  | succ fuel ih =>
      intro m m' t h ht hvisit
      rw [visit] at hvisit
      split at hvisit
      · rename_i hdone
        cases hvisit
        exact ⟨h, rfl, fun _ hv => hv, List.forall_mem_singleton.mpr ((h.visited t).mp hdone)⟩
      rename_i hnew
      rw [h.visited] at hnew
      split at hvisit
      · cases hvisit
      cases hfold : (next t).foldlM (visit next fuel) { m with visiting := t :: m.visiting } with
      | error e =>
          rw [hfold] at hvisit
          cases hvisit
      | ok mid =>
          rw [hfold] at hvisit
          cases hvisit
          have hstart : Sound next nodes { m with visiting := t :: m.visiting } :=
            ⟨h.visited, h.nodup, h.ordered, h.inside, List.forall_mem_cons.mpr ⟨hnew, h.apart⟩⟩
          have hmid := visits_foldlM ih hstart (hclosed t ht) hfold
          have hlast : t ∉ mid.sorted := by
            apply hmid.sound.apart
            rw [hmid.visiting]
            exact List.mem_cons_self
          have hback : mid.visiting.erase t = m.visiting := by
            rw [hmid.visiting]
            exact List.erase_cons_head t m.visiting
          refine ⟨⟨fun v => ?_, ?_, hmid.sound.ordered.concat hmid.covers, ?_, ?_⟩, hback, ?_, ?_⟩
          · rw [List.mem_cons, hmid.sound.visited, List.mem_append, List.mem_singleton, or_comm]
          · exact List.nodup_append.mpr ⟨hmid.sound.nodup, List.nodup_singleton t,
              fun v hv w hw heq => hlast (List.mem_singleton.mp hw ▸ heq ▸ hv)⟩
          · intro v hv
            rcases List.mem_append.mp hv with hv | hv
            · exact hmid.sound.inside v hv
            · exact List.mem_singleton.mp hv ▸ ht
          · change ∀ v ∈ mid.visiting.erase t, v ∉ mid.sorted ++ [t]
            rw [hback]
            intro v hv hmem
            rcases List.mem_append.mp hmem with hmem | hmem
            · refine hmid.sound.apart v ?_ hmem
              rw [hmid.visiting]
              exact List.mem_cons_of_mem t hv
            · rw [List.mem_singleton.mp hmem] at hv
              contradiction
          · exact fun v hv => List.mem_append_left _ (hmid.keeps v hv)
          · exact List.forall_mem_singleton.mpr (List.mem_append_right _ List.mem_cons_self)

/-- A list of visits that fails, where each visit fails as it should. -/
theorem leads_of_foldlM_error {fuel : ℕ} {path : List α}
    (ih : ∀ {m : Marks α} {t e : α}, Sound next nodes m → m.visiting = path →
      Path next nodes (t :: path) → visit next fuel m t = .error e → Leads next e e) :
    ∀ {ts : List α} {m : Marks α} {e : α}, Sound next nodes m → m.visiting = path →
      (∀ t ∈ ts, Path next nodes (t :: path)) → ts.foldlM (visit next fuel) m = .error e →
      Leads next e e := by
  intro ts
  induction ts with
  | nil =>
      intro m e _ _ _ hfold
      cases hfold
  | cons t ts ihList =>
      intro m e h hsame hpath hfold
      have ht : Path next nodes (t :: path) := hpath t List.mem_cons_self
      rw [List.foldlM_cons] at hfold
      cases hmid : visit next fuel m t with
      | error e' =>
          rw [hmid] at hfold
          cases hfold
          exact ih h hsame ht hmid
      | ok mid =>
          rw [hmid] at hfold
          have hvisits := visits_visit hclosed fuel h (ht.2 t List.mem_cons_self) hmid
          exact ihList hvisits.sound (hvisits.visiting.trans hsame)
            (fun v hv => hpath v (List.mem_cons_of_mem t hv)) hfold

/-- **A visit that fails** has met a node on the way from itself. -/
theorem leads_of_visit_error : ∀ (fuel : ℕ) {m : Marks α} {t e : α}, Sound next nodes m →
    Path next nodes (t :: m.visiting) → (nodes.filter (· ∉ m.visiting)).length < fuel →
    visit next fuel m t = .error e → Leads next e e := by
  intro fuel
  induction fuel with
  | zero =>
      intro m t e _ _ hfuel _
      exact absurd hfuel (Nat.not_lt_zero _)
  | succ fuel ih =>
      intro m t e h hpath hfuel hvisit
      rw [visit] at hvisit
      split at hvisit
      · cases hvisit
      rename_i hnew
      rw [h.visited] at hnew
      split at hvisit
      · rename_i hon
        cases hvisit
        exact hpath.leads hon
      rename_i hoff
      have ht : t ∈ nodes := hpath.2 t List.mem_cons_self
      -- one node less is off the way
      have hless : (nodes.filter (· ∉ t :: m.visiting)).length < fuel := by
        have hsplit : nodes.filter (· ∉ t :: m.visiting)
            = (nodes.filter (· ∉ m.visiting)).filter (· ≠ t) := by
          rw [List.filter_filter]
          refine List.filter_congr fun v _ => ?_
          simp only [List.mem_cons, not_or, Bool.decide_and]
        have hmem : t ∈ nodes.filter (· ∉ m.visiting) :=
          List.mem_filter.mpr ⟨ht, decide_eq_true hoff⟩
        rw [hsplit]
        exact Nat.lt_of_lt_of_le (List.length_filter_lt_length_iff_exists.mpr ⟨t, hmem, by simp⟩)
          (Nat.le_of_lt_succ hfuel)
      have hstart : Sound next nodes { m with visiting := t :: m.visiting } :=
        ⟨h.visited, h.nodup, h.ordered, h.inside, List.forall_mem_cons.mpr ⟨hnew, h.apart⟩⟩
      cases hfold : (next t).foldlM (visit next fuel) { m with visiting := t :: m.visiting } with
      | error e' =>
          rw [hfold] at hvisit
          cases hvisit
          refine leads_of_foldlM_error hclosed (fun h' hsame hlonger herror => ?_) hstart rfl
            (fun w hw => hpath.cons hw (hclosed t ht w hw)) hfold
          have hsame : _ = t :: m.visiting := hsame
          rw [← hsame] at hless
          exact ih h' (hsame ▸ hlonger) hless herror
      | ok mid =>
          rw [hfold] at hvisit
          cases hvisit

/-! ## What the sort does -/

/-- **A sort that returns** lists the nodes once each, and in order. -/
theorem sort_ok {l : List α} (hsort : sort next nodes = .ok l) :
    l.Nodup ∧ (∀ v, v ∈ l ↔ v ∈ nodes) ∧ Ordered next l := by
  unfold sort at hsort
  cases hfold : nodes.foldlM (visit next (nodes.length + 1)) ⟨[], [], []⟩ with
  | error e =>
      rw [hfold] at hsort
      cases hsort
  | ok m =>
      rw [hfold] at hsort
      cases hsort
      have hvisits := visits_foldlM (visits_visit hclosed (nodes.length + 1))
        (sound_start next nodes) (fun _ hv => hv) hfold
      exact ⟨hvisits.sound.nodup, fun v => ⟨hvisits.sound.inside v, hvisits.covers v⟩,
        hvisits.sound.ordered⟩

/-- Then no node leads to itself. -/
theorem not_leads_of_sort {l : List α} (hsort : sort next nodes = .ok l) {v : α} (hv : v ∈ nodes) :
    ¬ Leads next v v := by
  obtain ⟨-, hmem, hordered⟩ := sort_ok hclosed hsort
  intro hlead
  exact absurd (hordered.idxOf_lt ((hmem v).mpr hv) hlead).2 (Nat.lt_irrefl _)

/-- **A sort that fails** has found a cycle. -/
theorem sort_error {e : α} (hsort : sort next nodes = .error e) : Leads next e e := by
  unfold sort at hsort
  cases hfold : nodes.foldlM (visit next (nodes.length + 1)) ⟨[], [], []⟩ with
  | error e' =>
      rw [hfold] at hsort
      cases hsort
      refine leads_of_foldlM_error hclosed (fun h hsame hpath herror => ?_)
        (sound_start next nodes) rfl (fun w hw => ?_) hfold
      · rw [← hsame] at hpath
        exact leads_of_visit_error hclosed _ h hpath
          (Nat.lt_succ_of_le (List.length_filter_le _ _)) herror
      · exact ⟨List.isChain_singleton w, List.forall_mem_singleton.mpr hw⟩
  | ok m =>
      rw [hfold] at hsort
      cases hsort

end DzIpc.DepthFirst
