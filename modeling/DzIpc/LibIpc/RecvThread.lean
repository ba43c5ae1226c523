import DzIpc.LibIpc.Recv

/-!
# Several channels in one thread

`recv_cache` is one cache for a thread.  Every channel the thread receives on keeps its
unfinished messages there, under message ids that each channel counts on its own, and
`disconnect_receiver` clears all of it.

The machine has any number of channels and any messages popped from them.  Each entry of the
cache and each buffer returned records the channels whose fragments are in it.

* `leavesOthers_iff`: a step leaves the unfinished messages of the other channels alone exactly
  if it finds no message of another channel under the id of a fragment, none that the clean-up
  removes, and none at all when it disconnects.
* `channels_apart_iff` is the result for runs, with what the buffers returned consist of.
* `separate_of_one_channel`: a thread that receives on one channel only is safe, and
  `channels_mixed` shows two channels in one thread.
-/

namespace DzIpc.LibIpc.RecvThread

open Recv

/-- A buffer that `recv` returned, its channel, and the channels of the fragments in it. -/
structure Returned where
  channel : ℕ
  buff : List (Option UInt8)
  parts : List ℕ
  deriving DecidableEq

/-- The channels of a thread, its `recv_cache()`, and the buffers returned, the last first. -/
structure State where
  connected : ℕ → Bool
  cache : Caches
  /-- The channels of the fragments in the entry of the cache with an id. -/
  parts : BitVec 32 → List ℕ
  returned : List Returned

/-- What the thread does. -/
inductive Action where
  | connect (c : ℕ)
  /-- `disconnect`, or `reconnect` as a sender. -/
  | disconnect (c : ℕ)
  /-- One pop of `recv` or `try_recv` and what follows it: whether the message is the channel's
  own, what the chunks hold, and the message. -/
  | recv (c : ℕ) (own : Bool) (contents : ChunkId → ℕ → UInt8) (m : Msg)

/-- The channel an action is on. -/
def Action.channel : Action → ℕ
  | .connect c | .disconnect c | .recv c _ _ _ => c

/-- Nothing received yet. -/
def init : State :=
  { connected := fun _ => false, cache := [], parts := fun _ => [], returned := [] }

/-- The message is a fragment, or a message in one slot. -/
def inSlots (m : Msg) : Bool :=
  match m.body with
  | .bytes _ => 0 < m.rSize
  | .storage _ => false

/-- The channels of the fragments that are together once a message is taken from a channel.  An
entry that is full takes no more bytes. -/
def partsWith (s : State) (c : ℕ) (m : Msg) : List ℕ :=
  if inSlots m then
    match s.cache.lookup m.id with
    | none => [c]
    | some cac => if cac.fill ≥ cac.buff.length then s.parts m.id else c :: s.parts m.id
  else [c]

/-- One step. -/
def step (s : State) : Action → Option State
  | .connect c => some { s with connected := Function.update s.connected c true }
  | .disconnect c =>
      some { s with
        connected := Function.update s.connected c false
        cache := if s.connected c then [] else s.cache }
  | .recv c own contents m =>
      if ¬ s.connected c then none
      else if own then some s
      else
        let (buff, cache) := recvMsg contents s.cache m (0, 0)
        some { s with
          cache := cache
          parts := if inSlots m then Function.update s.parts m.id (partsWith s c m) else s.parts
          returned := (buff.map fun b => ⟨c, b, partsWith s c m⟩).toList ++ s.returned }

/-- The channels of a thread as a machine. -/
def machine : Machine State Action := ⟨init, step⟩

/-! ## Channels that do not share fragments -/

/-- The entry with an id has a fragment of another channel. -/
def Foreign (s : State) (c : ℕ) (id : BitVec 32) : Prop :=
  ∃ d ∈ s.parts id, d ≠ c

/-- A step leaves the unfinished messages of the other channels as they are. -/
def LeavesOthers (s : State) (a : Action) : Prop :=
  ∀ t, step s a = some t → ∀ id cac, s.cache.lookup id = some cac → Foreign s a.channel id →
    ∃ cac', t.cache.lookup id = some cac' ∧ cac'.fill = cac.fill ∧ cac'.buff = cac.buff

/-- Every buffer returned for a channel consists of fragments of that channel. -/
def OwnParts (s : State) : Prop :=
  ∀ r ∈ s.returned, ∀ d ∈ r.parts, d = r.channel

instance : DecidablePred OwnParts := fun s => by
  unfold OwnParts
  infer_instance

/-- The condition on a step: the ids of the fragments do not collide with those of another
channel's unfinished messages, the clean-up reaches none of these, and there are none when a
connected channel is disconnected. -/
def Separate (s : State) : Action → Prop
  | .connect _ => True
  | .disconnect c =>
      s.connected c = true → ∀ id, (s.cache.lookup id).isSome = true → ¬ Foreign s c id
  | .recv c own _ m =>
      s.connected c = true → own = false → inSlots m = true →
        match s.cache.lookup m.id with
        | some cac => ¬ Foreign s c m.id ∨ 0 < m.remain.toInt ∧ cac.fill ≥ cac.buff.length
        | none =>
            m.rSize ≤ dataLength ∨ s.cache.length ≤ 1024 ∨
              ∀ id, (s.cache.lookup id).isSome = true → Foreign s c id →
                max m.id.toNat id.toNat - min m.id.toNat id.toNat ≤ 8192

/-! ## One pass of the loop of `recv` -/

/-- What is found after entries are removed by their ids. -/
theorem lookup_filter (p : BitVec 32 → Bool) (caches : Caches) (id : BitVec 32) :
    (caches.filter fun e => p e.1).lookup id = if p id then caches.lookup id else none := by
  induction caches with
  | nil => simp
  | cons e rest ih =>
      obtain ⟨k, cac⟩ := e
      by_cases hk : id = k
      · subst hk
        cases hp : p id with
        | true => simp [hp]
        | false =>
            rw [hp] at ih
            simpa [List.filter_cons, hp] using ih
      · have hbeq : (id == k) = false := by simpa using hk
        cases hp : p k with
        | true => simpa [List.filter_cons, hp, List.lookup_cons, hbeq] using ih
        | false => simpa [List.filter_cons, hp, List.lookup_cons, hbeq] using ih

theorem lookup_erase (id : BitVec 32) (caches : Caches) (k : BitVec 32) :
    (erase id caches).lookup k = if k = id then none else caches.lookup k := by
  have h := lookup_filter (fun k => decide (k ≠ id)) caches k
  rw [erase, h]
  by_cases hk : k = id <;> simp [hk]

theorem lookup_gc (id : BitVec 32) (caches : Caches) (k : BitVec 32) :
    (gc id caches).lookup k =
      if caches.length ≤ 1024 ∨ max id.toNat k.toNat - min id.toNat k.toNat ≤ 8192 then
        caches.lookup k
      else none := by
  unfold gc
  by_cases hlen : caches.length > 1024
  · have h := lookup_filter
      (fun k => decide (max id.toNat k.toNat - min id.toNat k.toNat ≤ 8192)) caches k
    rw [if_pos hlen, h]
    have hnot : ¬ caches.length ≤ 1024 := Nat.not_le.mpr hlen
    simp only [decide_eq_true_eq, hnot, false_or]
  · rw [if_neg hlen, if_pos (Or.inl (Nat.not_lt.mp hlen))]

variable {contents : ChunkId → ℕ → UInt8} {caches : Caches} {m : Msg}

/-- A message whose bytes are in a chunk, or whose length is not positive, is not looked up. -/
theorem recvMsg_of_not_inSlots (h : inSlots m = false) :
    (recvMsg contents caches m (0, 0)).2 = caches := by
  unfold inSlots at h
  unfold recvMsg
  split
  · rfl
  · rename_i hsize
    cases hbody : m.body with
    | storage id => rfl
    | bytes data =>
        rw [hbody] at h
        exact absurd (Int.not_le.mp hsize) (of_decide_eq_false h)

/-- A slot that is the first of its message. -/
theorem recvMsg_first (contents : ChunkId → ℕ → UInt8) (h : inSlots m = true) (hfirst : caches.lookup m.id = none) :
    ∃ data, recvMsg contents caches m (0, 0) =
      if m.rSize ≤ dataLength then (some (makeCache data m.rSize.toNat), caches)
      else (none, (m.id, ⟨dataLength, makeCache data m.rSize.toNat, (0, 1)⟩) :: gc m.id caches) := by
  unfold inSlots at h
  cases hbody : m.body with
  | storage id =>
      rw [hbody] at h
      cases h
  | bytes data =>
      rw [hbody] at h
      have hsize : 0 < m.rSize := of_decide_eq_true h
      refine ⟨data, ?_⟩
      unfold recvMsg
      rw [if_neg (Int.not_le.mpr hsize), hbody]
      simp only [hfirst]
      have hiff : m.rSize.toNat ≤ dataLength ↔ m.rSize ≤ dataLength := Int.toNat_le
      simp only [hiff]

/-- A slot that continues a message. -/
theorem recvMsg_next (contents : ChunkId → ℕ → UInt8) {cac : Cache} (h : inSlots m = true)
    (hcached : caches.lookup m.id = some cac) :
    ∃ data, 0 < m.rSize.toNat ∧ recvMsg contents caches m (0, 0) =
      if m.remain.toInt ≤ 0 then
        (some (cac.append data m.rSize.toNat).buff, erase m.id caches)
      else
        (none, (m.id, { cac.append data dataLength with part := (0, 1) }) :: erase m.id caches) := by
  unfold inSlots at h
  cases hbody : m.body with
  | storage id =>
      rw [hbody] at h
      cases h
  | bytes data =>
      rw [hbody] at h
      have hsize : 0 < m.rSize := of_decide_eq_true h
      refine ⟨data, Int.lt_toNat.mpr hsize, ?_⟩
      unfold recvMsg
      rw [if_neg (Int.not_le.mpr hsize), hbody]
      simp only [hcached]

/-- An entry takes bytes exactly if it is not full. -/
theorem append_eq_self_iff {cac : Cache} {data : List UInt8} {size : ℕ} (hsize : 0 < size) :
    (cac.append data size).fill = cac.fill ∧ (cac.append data size).buff = cac.buff ↔
      cac.fill ≥ cac.buff.length := by
  have hne : size ≠ 0 := Nat.ne_of_gt hsize
  unfold Cache.append
  by_cases hfull : cac.fill ≥ cac.buff.length
  · simp [hfull]
  · rw [if_neg (not_or.mpr ⟨hfull, hne⟩)]
    simp only [hfull, iff_false, not_and]
    intro hfill
    omega

/-! ## One step -/

variable {s t : State} {c : ℕ}

/-- The step of a connected channel that takes a message of somebody else. -/
theorem step_recv (hconn : s.connected c = true) :
    step s (.recv c false contents m) = some { s with
      cache := (recvMsg contents s.cache m (0, 0)).2
      parts := if inSlots m then Function.update s.parts m.id (partsWith s c m) else s.parts
      returned := ((recvMsg contents s.cache m (0, 0)).1.map
        fun b => ⟨c, b, partsWith s c m⟩).toList ++ s.returned } := by
  simp [step, hconn]

/-- A fragment of the first kind leaves the others alone if the clean-up does. -/
theorem leavesOthers_first (hconn : s.connected c = true) (hslots : inSlots m = true)
    (hfirst : s.cache.lookup m.id = none) :
    LeavesOthers s (.recv c false contents m) ↔
      m.rSize ≤ dataLength ∨ s.cache.length ≤ 1024 ∨
        ∀ id, (s.cache.lookup id).isSome = true → Foreign s c id →
          max m.id.toNat id.toNat - min m.id.toNat id.toNat ≤ 8192 := by
  obtain ⟨data, hpass⟩ := recvMsg_first contents hslots hfirst
  by_cases hsmall : m.rSize ≤ dataLength
  · rw [if_pos hsmall] at hpass
    refine iff_of_true (fun t hstep id cac hcac _ => ?_) (Or.inl hsmall)
    rw [step_recv hconn, hpass] at hstep
    cases hstep
    exact ⟨cac, hcac, rfl, rfl⟩
  · rw [if_neg hsmall] at hpass
    -- an entry of another id is found afterwards if the clean-up lets it be
    have hafter : ∀ t, step s (.recv c false contents m) = some t → ∀ id, id ≠ m.id →
        t.cache.lookup id = (gc m.id s.cache).lookup id := by
      intro t hstep id hid
      have hbeq : (id == m.id) = false := by simpa using hid
      rw [step_recv hconn, hpass] at hstep
      cases hstep
      simp [List.lookup_cons, hbeq]
    have hother : ∀ id cac, s.cache.lookup id = some cac → id ≠ m.id := by
      rintro id cac hcac rfl
      rw [hfirst] at hcac
      cases hcac
    constructor
    · intro hleaves
      refine Or.inr (or_iff_not_imp_left.mpr fun hlen id hsome hforeign => ?_)
      obtain ⟨cac, hcac⟩ := Option.isSome_iff_exists.mp hsome
      obtain ⟨cac', hcac', -⟩ := hleaves _ (step_recv hconn) id cac hcac hforeign
      rw [hafter _ (step_recv hconn) id (hother id cac hcac), lookup_gc] at hcac'
      by_contra hfar
      rw [if_neg (not_or.mpr ⟨hlen, hfar⟩)] at hcac'
      cases hcac'
    · intro hkept t hstep id cac hcac hforeign
      refine ⟨cac, ?_, rfl, rfl⟩
      have hnear := (hkept.resolve_left hsmall).imp_right
        fun h => h id (Option.isSome_iff_exists.mpr ⟨cac, hcac⟩) hforeign
      rw [hafter t hstep id (hother id cac hcac), lookup_gc, if_pos hnear, hcac]

/-- A fragment that continues a message leaves the others alone if the message is of the same
channel, or full and not at its end. -/
theorem leavesOthers_next {cac : Cache} (hconn : s.connected c = true) (hslots : inSlots m = true)
    (hcached : s.cache.lookup m.id = some cac) :
    LeavesOthers s (.recv c false contents m) ↔
      ¬ Foreign s c m.id ∨ 0 < m.remain.toInt ∧ cac.fill ≥ cac.buff.length := by
  obtain ⟨data, hsize, hpass⟩ := recvMsg_next contents hslots hcached
  -- what is found afterwards under another id, and under the message's
  have hother : ∀ t, step s (.recv c false contents m) = some t → ∀ id, id ≠ m.id →
      t.cache.lookup id = s.cache.lookup id := by
    intro t hstep id hid
    have hbeq : (id == m.id) = false := by simpa using hid
    have herase := lookup_erase m.id s.cache id
    rw [if_neg hid] at herase
    rw [step_recv hconn, hpass] at hstep
    cases hstep
    split
    · exact herase
    · simpa [List.lookup_cons, hbeq] using herase
  have hsame : ∀ t, step s (.recv c false contents m) = some t → t.cache.lookup m.id =
      if m.remain.toInt ≤ 0 then none
      else some { cac.append data dataLength with part := (0, 1) } := by
    intro t hstep
    rw [step_recv hconn, hpass] at hstep
    cases hstep
    split
    · rw [lookup_erase, if_pos rfl]
    · simp
  constructor
  · intro hleaves
    refine or_iff_not_imp_left.mpr fun hforeign => ?_
    obtain ⟨cac', hcac', hfill, hbuff⟩ :=
      hleaves _ (step_recv hconn) m.id cac hcached (not_not.mp hforeign)
    rw [hsame _ (step_recv hconn)] at hcac'
    split at hcac'
    · cases hcac'
    · rename_i hmore
      cases hcac'
      exact ⟨Int.not_le.mp hmore, (append_eq_self_iff (by decide)).mp ⟨hfill, hbuff⟩⟩
  · intro hsep t hstep id cac₁ hcac₁ hforeign
    by_cases hid : id = m.id
    · subst hid
      obtain rfl : cac = cac₁ := Option.some.inj (hcached.symm.trans hcac₁)
      obtain ⟨hmore, hfull⟩ := hsep.resolve_left (not_not_intro hforeign)
      rw [hsame t hstep, if_neg (Int.not_le.mpr hmore)]
      exact ⟨_, rfl, (append_eq_self_iff (by decide)).mpr hfull⟩
    · exact ⟨cac₁, (hother t hstep id hid).trans hcac₁, rfl, rfl⟩

/-- **One step.**  It leaves the unfinished messages of the other channels alone exactly if it
meets the condition. -/
theorem leavesOthers_iff (s : State) (a : Action) : LeavesOthers s a ↔ Separate s a := by
  cases a with
  | connect c =>
      refine iff_of_true (fun t hstep id cac hcac _ => ?_) trivial
      cases hstep
      exact ⟨cac, hcac, rfl, rfl⟩
  | disconnect c =>
      constructor
      · intro hleaves hconn id hsome hforeign
        obtain ⟨cac, hcac⟩ := Option.isSome_iff_exists.mp hsome
        obtain ⟨cac', hcac', -⟩ := hleaves _ rfl id cac hcac hforeign
        simp [hconn] at hcac'
      · intro hsep t hstep id cac hcac hforeign
        cases hstep
        have hoff : s.connected c = false := by
          by_contra hconn
          exact hsep (Bool.not_eq_false _ ▸ hconn) id (Option.isSome_iff_exists.mpr ⟨cac, hcac⟩) hforeign
        exact ⟨cac, by simpa [hoff] using hcac, rfl, rfl⟩
  | recv c own contents m =>
      by_cases hready : s.connected c = true ∧ own = false ∧ inSlots m = true
      · obtain ⟨hconn, rfl, hslots⟩ := hready
        unfold Separate
        simp only [hconn, hslots, forall_const]
        cases hcached : s.cache.lookup m.id with
        | none => exact leavesOthers_first hconn hslots hcached
        | some cac => exact leavesOthers_next hconn hslots hcached
      · have hsep : Separate s (.recv c own contents m) :=
          fun hconn hown hslots => absurd ⟨hconn, hown, hslots⟩ hready
        refine iff_of_true (fun t hstep id cac hcac _ => ?_) hsep
        -- such a message does not reach the cache
        have hcache : t.cache = s.cache := by
          simp only [step] at hstep
          split at hstep
          · cases hstep
          · rename_i hconn
            split at hstep <;> cases hstep
            · rfl
            · rename_i hown
              apply recvMsg_of_not_inSlots
              by_contra hslots
              exact hready ⟨not_not.mp hconn, Bool.eq_false_of_not_eq_true hown,
                Bool.eq_true_of_not_eq_false hslots⟩
        exact ⟨cac, hcache ▸ hcac, rfl, rfl⟩

/-- A buffer that is returned in a step that meets the condition consists of fragments of its
channel. -/
theorem ownParts_step {a : Action} (hown : OwnParts s) (hsep : Separate s a)
    (hstep : step s a = some t) : OwnParts t := by
  cases a with
  | connect c | disconnect c =>
      cases hstep
      exact hown
  | recv c own contents m =>
      simp only [step] at hstep
      split at hstep
      · cases hstep
      rename_i hconn
      split at hstep <;> cases hstep
      · exact hown
      rename_i hother
      intro r hr d hd
      rcases List.mem_append.mp hr with hnew | hold
      · obtain ⟨b, hb, rfl⟩ := Option.map_eq_some_iff.mp (Option.mem_toList.mp hnew)
        by_cases hslots : inSlots m = true
        · have hsep' := hsep (not_not.mp hconn) (Bool.eq_false_of_not_eq_true hother) hslots
          cases hcached : s.cache.lookup m.id with
          | none => simpa [partsWith, hslots, hcached] using hd
          | some cac =>
              -- a buffer is returned with the last fragment only
              obtain ⟨data, -, hpass⟩ := recvMsg_next contents hslots hcached
              have hlast : m.remain.toInt ≤ 0 := by
                by_contra hmore
                rw [hpass, if_neg hmore] at hb
                cases hb
              simp only [hcached] at hsep'
              have hnot : ¬ Foreign s c m.id :=
                hsep'.resolve_right fun h => absurd h.1 (Int.not_lt.mpr hlast)
              by_contra hne
              simp only [partsWith, hslots, if_true, hcached] at hd
              split at hd
              · exact hnot ⟨d, hd, hne⟩
              · exact hnot ⟨d, (List.mem_cons.mp hd).resolve_left hne, hne⟩
        · simpa [partsWith, hslots] using hd
      · exact hown r hold d hd

/-! ## Runs -/

/-- **Channels in one thread.**  In a run of any number of channels, every buffer returned
consists of fragments of its channel and no step touches an unfinished message of another
channel, if and only if every step meets the condition. -/
theorem channels_apart_iff {actions : List Action} {s : State}
    (hrun : machine.run actions = some s) :
    OwnParts s ∧ machine.Guarded LeavesOthers actions ↔ machine.Guarded Separate actions := by
  have hsame : LeavesOthers = Separate := by
    funext s a
    exact propext (leavesOthers_iff s a)
  rw [hsame, and_iff_right_iff_imp]
  intro hguarded
  apply Machine.invariant_of_guarded (M := machine) _ _ hguarded hrun
  · exact fun r hr => nomatch hr
  · exact fun s a t hown hsep hstep => ownParts_step hown hsep hstep

/-- All that has been received is of one channel. -/
def OneChannel (c : ℕ) (s : State) : Prop :=
  ∀ id, ∀ d ∈ s.parts id, d = c

theorem oneChannel_step {a : Action} (h : OneChannel c s) (ha : a.channel = c)
    (hstep : step s a = some t) : OneChannel c t := by
  cases a with
  | connect c' | disconnect c' =>
      cases hstep
      exact h
  | recv c' own contents m =>
      obtain rfl : c' = c := ha
      simp only [step] at hstep
      split at hstep
      · cases hstep
      split at hstep <;> cases hstep
      · exact h
      have hwith : ∀ d ∈ partsWith s c' m, d = c' := by
        intro d hd
        unfold partsWith at hd
        split at hd
        · split at hd
          · exact List.mem_singleton.mp hd
          · split at hd
            · exact h m.id d hd
            · exact (List.mem_cons.mp hd).elim id (h m.id d)
        · exact List.mem_singleton.mp hd
      intro id d hd
      simp only at hd
      split at hd
      · by_cases hid : id = m.id
        · subst hid
          exact hwith d (by simpa using hd)
        · exact h id d (by simpa [hid] using hd)
      · exact h id d hd

/-- A thread that receives on one channel only meets the condition in every run. -/
theorem separate_of_one_channel (c : ℕ) (actions : List Action)
    (hone : ∀ a ∈ actions, a.channel = c) : machine.Guarded Separate actions := by
  have hsep : ∀ s a, OneChannel c s → a.channel = c → Separate s a := by
    intro s a h ha
    cases a with
    | connect c' => trivial
    | disconnect c' =>
        obtain rfl : c' = c := ha
        exact fun _ id _ ⟨d, hd, hne⟩ => hne (h id d hd)
    | recv c' own contents m =>
        obtain rfl : c' = c := ha
        intro _ _ _
        have hnone : ∀ id, ¬ Foreign s c' id := fun id ⟨d, hd, hne⟩ => hne (h id d hd)
        split
        · exact Or.inl (hnone m.id)
        · exact Or.inr (Or.inr fun id _ hforeign => absurd hforeign (hnone id))
  have hinit : OneChannel c machine.init := fun _ _ hd => nomatch hd
  have hkept : ∀ s a t, OneChannel c s → a.channel = c → machine.step s a = some t →
      OneChannel c t := fun _ _ _ h ha hstep => oneChannel_step h ha hstep
  exact Machine.guardedFrom_of_forall hsep hkept hinit hone

/-- The slots of a payload that `send` splits up under a message id. -/
def slotsOf (id : BitVec 32) (payload : List UInt8) : List Msg :=
  (fragments payload).map fun f => ⟨id, f.1, .bytes f.2⟩

/-- Two channels, each with one message of 65 bytes; the thread takes the first slot of channel
0 and then both of channel 1. -/
def twoChannels (id₀ id₁ : BitVec 32) : List Action :=
  let recv (c : ℕ) (m : Msg) : Action := .recv c false (fun _ _ => 0) m
  [.connect 0, .connect 1] ++ ((slotsOf id₀ (List.replicate 65 7)).take 1).map (recv 0) ++
    (slotsOf id₁ (List.replicate 65 9)).map (recv 1)

theorem channels_apart_iff_twoChannels :
    ∃ s, machine.run (twoChannels 0 1) = some s ∧
      (OwnParts s ∧ machine.Guarded LeavesOthers (twoChannels 0 1) ↔
        machine.Guarded Separate (twoChannels 0 1)) := by
  have hsome : (machine.run (twoChannels 0 1)).isSome = true := by decide +kernel
  obtain ⟨s, hrun⟩ := Option.isSome_iff_exists.mp hsome
  exact ⟨s, hrun, channels_apart_iff hrun⟩

/-- **Channels that mix.**  Both channels count from 0, and what `recv` returns for channel 1 is
the message of channel 0, but for its last byte. -/
theorem channels_mixed :
    ∃ s, machine.run (twoChannels 0 0) = some s ∧
      ({ channel := 1, buff := List.replicate 64 (some 7) ++ [some 9], parts := [1, 0] } : Returned)
        ∈ s.returned ∧ ¬ OwnParts s :=
  Machine.exists_of_any (M := machine) (by decide +kernel)

end DzIpc.LibIpc.RecvThread
