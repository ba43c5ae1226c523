import DzIpc.Control.InfoPool
import DzIpc.TopicCat.MsgTypeIdentify
import Mathlib.Data.List.MinMax
import Mathlib.Data.Prod.Lex

/-!
# Which entry the echo tool attaches to

`select_sniffer_entry` goes over a snapshot of the info pool once and keeps the entry that its
comparisons prefer.  `selectSnifferEntry_eq` says what this is: the greatest of the entries that
can be attached to, in the lexicographic order of `rank`.
-/

namespace DzIpc.TopicCat

open Control.InfoPool

/-! ## The choice -/

inductive TransportPreference where
  | auto
  | shm
  | socket
  deriving DecidableEq, Repr

def isShmKind : EntryKind → Bool
  | .shmServer | .shmClient | .shmPub | .shmSub => true
  | _ => false

/-- The kinds that belong to the mode. -/
def isSniffableKind (k : EntryKind) (serOrTopic : Bool) : Bool :=
  if serOrTopic then
    k = .socketServer || k = .socketClient || k = .shmServer || k = .shmClient
  else k = .socketPub || k = .socketSub || k = .shmPub || k = .shmSub

def transportAllowed (pref : TransportPreference) (shm : Bool) : Bool :=
  match pref with
  | .shm => shm
  | .socket => !shm
  | .auto => true

/-- `--topic`, `--ser_or_topic` and `--transport`. -/
structure CatOptions where
  topicName : Text
  serOrTopic : Bool
  pref : TransportPreference
  deriving DecidableEq, Repr

structure Selection where
  found : Bool
  slot : ℤ
  kind : EntryKind
  pid : ℕ
  domainId : BitVec 32
  registerTs : ℕ
  shm : Bool
  deriving DecidableEq, Repr

namespace Selection

/-- `Selection{}`. -/
def init : Selection :=
  { found := false, slot := -1, kind := .unknown, pid := 0, domainId := 0, registerTs := 0
    shm := false }

/-- The closure `take`. -/
def take (e : EntrySnapshot) (shm : Bool) : Selection :=
  { found := true, slot := e.slot, kind := e.kind, pid := e.pid, domainId := e.domainId
    registerTs := e.registerTs, shm := shm }

/-- Whether a sniffer for the one would be the same as for the other. -/
def sameChannel (sel other : Selection) : Bool :=
  sel.found && other.found && decide (sel.shm = other.shm) && decide (sel.domainId = other.domainId)

/-- The loop's body. -/
def consider (opts : CatOptions) (best : Selection) (e : EntrySnapshot) : Selection :=
  if e.topicName ≠ opts.topicName then best
  else if !e.alive || !e.inUse then best
  else if !isSniffableKind e.kind opts.serOrTopic then best
  else
    let shm := isShmKind e.kind
    if !transportAllowed opts.pref shm then best
    else if !best.found then take e shm
    else if shm ≠ best.shm then if shm then take e shm else best
    else if e.registerTs > best.registerTs ∨
        (e.registerTs = best.registerTs ∧ (e.slot : ℤ) < best.slot) then take e shm
    else best

end Selection

def selectSnifferEntry (opts : CatOptions) (entries : List EntrySnapshot) : Selection :=
  entries.foldl (Selection.consider opts) .init

/-! ## What is chosen -/

/-- The entry can be attached to. -/
def sniffable (opts : CatOptions) (e : EntrySnapshot) : Bool :=
  decide (e.topicName = opts.topicName) && e.alive && e.inUse &&
    isSniffableKind e.kind opts.serOrTopic && transportAllowed opts.pref (isShmKind e.kind)

/-- Shared memory first, then the latest, then the lowest slot. -/
def rank (e : EntrySnapshot) : Bool ×ₗ ℕ ×ₗ ℕᵒᵈ :=
  toLex (isShmKind e.kind, toLex (e.registerTs, OrderDual.toDual e.slot))

theorem rank_lt_iff {e e' : EntrySnapshot} :
    rank e < rank e' ↔
      isShmKind e.kind < isShmKind e'.kind ∨ isShmKind e.kind = isShmKind e'.kind ∧
        (e.registerTs < e'.registerTs ∨ e.registerTs = e'.registerTs ∧ e'.slot < e.slot) := by
  rw [rank, rank, Prod.Lex.toLex_lt_toLex, Prod.Lex.toLex_lt_toLex, OrderDual.toDual_lt_toDual]

/-- The selection that stands for the entry kept so far. -/
def Selection.ofEntry : Option EntrySnapshot → Selection
  | none => .init
  | some e => .take e (isShmKind e.kind)

theorem consider_of_not_sniffable {opts : CatOptions} {e : EntrySnapshot}
    (he : sniffable opts e = false) (best : Selection) : best.consider opts e = best := by
  unfold Selection.consider
  by_cases hname : e.topicName = opts.topicName
  · rw [if_neg (not_not.mpr hname)]
    cases hoff : !e.alive || !e.inUse with
    | true => exact if_pos rfl
    | false =>
        rw [if_neg (by decide)]
        cases hkind : isSniffableKind e.kind opts.serOrTopic with
        | false => exact if_pos rfl
        | true =>
            have hon : e.alive = true ∧ e.inUse = true := by simpa using hoff
            have hallowed : transportAllowed opts.pref (isShmKind e.kind) = false := by
              simpa [sniffable, hname, hon.1, hon.2, hkind] using he
            rw [if_neg (by decide)]
            dsimp only
            rw [hallowed]
            exact if_pos rfl
  · exact if_pos hname

/-- The comparisons are those of `rank`. -/
theorem consider_of_sniffable {opts : CatOptions} {e : EntrySnapshot}
    (he : sniffable opts e = true) (best : Option EntrySnapshot) :
    (Selection.ofEntry best).consider opts e =
      Selection.ofEntry (List.argAux (fun b c => rank c < rank b) best e) := by
  simp only [sniffable, Bool.and_eq_true, decide_eq_true_eq] at he
  obtain ⟨⟨⟨⟨hname, halive⟩, hused⟩, hkind⟩, hallowed⟩ := he
  unfold Selection.consider
  rw [if_neg (not_not.mpr hname), halive, hused, hkind]
  dsimp only
  rw [hallowed]
  cases best with
  | none => rfl
  | some b =>
      have haux : List.argAux (fun b c => rank c < rank b) (some b) e =
          if rank b < rank e then some e else some b := rfl
      rw [haux, apply_ite Selection.ofEntry]
      simp only [rank_lt_iff, Selection.ofEntry, Selection.take, Nat.cast_lt]
      cases hshm : isShmKind e.kind <;> cases hshm' : isShmKind b.kind <;> simp [eq_comm]

/-- **The choice.**  What `select_sniffer_entry` returns is the greatest of the entries that can be
attached to, and `found` is false just if there is none. -/
theorem selectSnifferEntry_eq (opts : CatOptions) (entries : List EntrySnapshot) :
    selectSnifferEntry opts entries =
      Selection.ofEntry ((entries.filter (sniffable opts)).argmax rank) := by
  rw [List.argmax, List.foldl_filter]
  change entries.foldl (Selection.consider opts) (Selection.ofEntry none) = _
  refine List.foldl_hom Selection.ofEntry fun best e => ?_
  cases he : sniffable opts e with
  | false => exact consider_of_not_sniffable he _
  | true => exact consider_of_sniffable he best

/-- An entry that can be attached to, with none of a higher rank. -/
structure IsBest (opts : CatOptions) (entries : List EntrySnapshot) (e : EntrySnapshot) : Prop where
  mem : e ∈ entries
  ok : sniffable opts e = true
  le : ∀ e' ∈ entries, sniffable opts e' = true → rank e' ≤ rank e

theorem isBest_of_argmax {opts : CatOptions} {entries : List EntrySnapshot} {e : EntrySnapshot}
    (he : e ∈ (entries.filter (sniffable opts)).argmax rank) : IsBest opts entries e := by
  obtain ⟨hmem, hok⟩ := List.mem_filter.mp (List.argmax_mem he)
  refine ⟨hmem, hok, fun e' hmem' hok' => ?_⟩
  exact List.le_of_mem_argmax (List.mem_filter.mpr ⟨hmem', hok'⟩) he

theorem found_of_best {opts : CatOptions} {entries : List EntrySnapshot} {e : EntrySnapshot}
    (he : IsBest opts entries e) : (selectSnifferEntry opts entries).found = true := by
  rw [selectSnifferEntry_eq]
  cases hmax : (entries.filter (sniffable opts)).argmax rank with
  | none =>
      rw [List.argmax_eq_none] at hmax
      have hmem := List.mem_filter.mpr ⟨he.mem, he.ok⟩
      rw [hmax] at hmem
      cases hmem
  | some best => rfl

/-- What is found stands for a best entry. -/
theorem exists_best_of_found {opts : CatOptions} {entries : List EntrySnapshot}
    (hfound : (selectSnifferEntry opts entries).found = true) :
    ∃ e, IsBest opts entries e ∧ selectSnifferEntry opts entries = .take e (isShmKind e.kind) := by
  rw [selectSnifferEntry_eq] at hfound ⊢
  cases hmax : (entries.filter (sniffable opts)).argmax rank with
  | none =>
      rw [hmax] at hfound
      cases hfound
  | some best => exact ⟨best, isBest_of_argmax hmax, rfl⟩

end DzIpc.TopicCat
