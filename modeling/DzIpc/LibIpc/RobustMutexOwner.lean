import DzIpc.LibIpc.RobustMutex
import DzIpc.Library.Threads

/-!
# Who has the mutex

The threads over a `robust_mutex`, their accesses in any order, and any of them dying anywhere.

* `Inv`: at most one thread is at the place of an owner, and the kernel finds the mutex of one that
  dies there; `inv_step` is the induction step.
* `one_holder`: two threads never hold the mutex.
* `lock_of_quiet`: when no call is running, a `lock` that runs alone gets a mutex that is
  recoverable, whoever died with it.
* `recoverable_of_clean`: the mutex stays recoverable where nobody gives it back that regained it in
  a wait from an owner that died.
* `never_again`: who does gives it back for good.
-/

namespace DzIpc.LibIpc.RobustMutex

variable {T : Type*}

/-! ## Who has the mutex -/

/-- The places of who has the mutex. -/
def Pc.owns : Pc → Bool
  | .check _ | .add _ _ | .hold _ _ | .consistent _ | .unload _ _ | .swapOut _ _ | .unlockPi _ _
  | .woken => true
  | _ => false

/-- What the thread knows of the bit that says that the owner died. -/
def Pc.found : Pc → Option Bool
  | .add _ died | .hold _ died | .unload _ died | .swapOut _ died | .unlockPi _ died => some died
  | .consistent _ => some true
  | _ => none

/-- Within `robust_op_start` and `robust_op_end`. -/
def Pc.pends : Pc → Bool
  | .look _ | .swapIn _ | .ask _ | .check _ | .add _ _ | .swapOut _ _ | .unlockPi _ _ | .asleep
  | .woken => true
  | _ => false

/-- Between `robust_op_add` and `robust_op_del`. -/
def Pc.lists : Pc → Bool
  | .hold _ _ | .consistent _ | .unload _ _ => true
  | _ => false

/-- The kernel finds the mutex where the thread is in its calls or has it. -/
structure Thread.Marked (th : Thread) : Prop where
  pends : th.pc.pends = true → th.pending = true
  lists : th.pc.lists = true → th.listed = true

/-- What holds of a thread at its place. -/
structure Place (w : Word T) (t : T) (th : Thread) : Prop where
  marked : th.Marked
  owned : th.pc.owns = true → w.owner = .thread t ∨ w.owner = .nobody
  held : w.owner = .thread t → th.pc.owns = true
  found : w.owner = .thread t → ∀ died, th.pc.found = some died → w.died = died

/-- The threads are at their places, one of them at most at that of the owner, and a word without
an owner or a thread to own it says that the mutex is not recoverable. -/
structure Inv (s : State T) : Prop where
  places : ∀ t, Place s.word t (s.threads t)
  alone : ∀ t t', (s.threads t).pc.owns = true → (s.threads t').pc.owns = true → t = t'
  spoiled : s.word.owner = .nobody → s.word.died = true

theorem Thread.marked_iff {th : Thread} :
    th.Marked ↔ (th.pc.pends = true → th.pending = true) ∧ (th.pc.lists = true → th.listed = true) :=
  ⟨fun h => ⟨h.pends, h.lists⟩, fun h => ⟨h.1, h.2⟩⟩

namespace Thread.Marked

variable {th : Thread}

theorem outside (hpends : th.pc.pends = false) (hlists : th.pc.lists = false) : th.Marked where
  pends h := by rw [hpends] at h; cases h
  lists h := by rw [hlists] at h; cases h

theorem inside (hpending : th.pending = true) (hlists : th.pc.lists = false) : th.Marked where
  pends _ := hpending
  lists h := by rw [hlists] at h; cases h

theorem owner (hlisted : th.listed = true) (hpends : th.pc.pends = false) : th.Marked where
  pends h := by rw [hpends] at h; cases h
  lists _ := hlisted

end Thread.Marked

theorem inv_init : Inv (init : State T) where
  places t :=
    { marked := .outside rfl rfl
      owned := fun h => by cases h
      held := fun h => by cases h
      found := fun h => by cases h }
  alone t t' h := by cases h
  spoiled h := by cases h

theorem Pc.pends_or_lists {pc : Pc} (h : pc.owns = true) : pc.pends = true ∨ pc.lists = true := by
  cases pc with
  | check | add | swapOut | unlockPi | woken => exact .inl rfl
  | hold | consistent | unload => exact .inr rfl
  | out | look | swapIn | ask | addFailed | mark | asleep | dead => cases h

/-- Who has the mutex has it in its list, or pending. -/
theorem Thread.Marked.seen {th : Thread} (h : th.Marked) (howns : th.pc.owns = true) :
    (th.listed || th.pending) = true := by
  rw [Bool.or_eq_true]
  rcases Pc.pends_or_lists howns with hpends | hlists
  · exact .inr (h.pends hpends)
  · exact .inl (h.lists hlists)

theorem Pc.owns_of_given {pc pc' : Pc} (h : pc.given = some pc') :
    pc'.owns = true ∧ pc'.pends = true ∧ pc'.lists = false ∧ pc'.found = none ∧ pc.owns = false ∧
      pc.pends = true := by
  cases pc with
  | ask c =>
      cases h
      exact ⟨rfl, rfl, rfl, rfl, rfl, rfl⟩
  | asleep =>
      cases h
      exact ⟨rfl, rfl, rfl, rfl, rfl, rfl⟩
  | _ => cases h

theorem Call.taken_owns (c : Call) (died : Bool) :
    (c.taken died).owns = true ∧ (c.taken died).pends = false ∧
      (c.taken died).found = some died := by
  cases c with
  | lock => cases died <;> exact ⟨rfl, rfl, rfl⟩
  | tryLock => cases died <;> exact ⟨rfl, rfl, rfl⟩
  | regain e => cases e <;> exact ⟨rfl, rfl, rfl⟩

theorem Call.failed_owns (c : Call) (th : Thread) :
    (c.failed th).pc.owns = false ∧ (c.failed th).Marked := by
  cases c with
  | lock => exact ⟨rfl, .outside rfl rfl⟩
  | tryLock => exact ⟨rfl, .outside rfl rfl⟩
  | regain e => exact ⟨rfl, .outside rfl rfl⟩

theorem Then.thread_owns (k : Then) (listed : Bool) :
    (k.thread listed).pc.owns = false ∧ (k.thread listed).Marked := by
  cases k with
  | user => exact ⟨rfl, .outside rfl rfl⟩
  | again => exact ⟨rfl, .inside rfl rfl⟩
  | threw => exact ⟨rfl, .outside rfl rfl⟩
  | wait => exact ⟨rfl, .inside rfl rfl⟩

theorem Then.left_owns (k : Then) (died : Bool) (th : Thread) :
    (k.left died th).pc.owns = false ∧ (k.left died th).Marked := by
  cases died with
  | false => exact k.thread_owns th.listed
  | true => exact ⟨rfl, .outside rfl rfl⟩

/-! ## The moves keep the places -/

variable {w : Word T} {t : T} {th th' : Thread}

/-- A thread that has the mutex before and after, or neither. -/
theorem Place.keep (h : Place w t th) (hmarked : th'.Marked) (howns : th'.pc.owns = th.pc.owns)
    (hfound : ∀ died, th'.pc.found = some died → th.pc.found = some died ∨ w.died = died) :
    Place w t th' where
  marked := hmarked
  owned := fun h' => h.owned (howns ▸ h')
  held := fun howner => howns ▸ h.held howner
  found := fun howner died hd => (hfound died hd).elim (h.found howner died) id

/-- A thread that has nothing. -/
theorem Place.without (hmarked : th'.Marked) (howns : th'.pc.owns = false)
    (howner : w.owner ≠ .thread t) : Place w t th' where
  marked := hmarked
  owned := fun h' => by rw [howns] at h'; cases h'
  held := fun h' => absurd h' howner
  found := fun h' => absurd h' howner

/-- Who is at no place of an owner is not in the word. -/
theorem Place.not_owner (h : Place w t th) (howns : th.pc.owns = false) :
    w.owner ≠ .thread t := by
  intro howner
  have hheld := h.held howner
  rw [howns] at hheld
  cases hheld

theorem Move.place (h : Place w t th) (hm : Move w t th th') : Place w t th' := by
  have hmarked := h.marked
  cases hm with
  | call hpc =>
      refine h.keep (.inside rfl rfl) (by rw [hpc]; rfl) fun d hd => by cases hd
  | swapIn hpc =>
      rw [Thread.marked_iff, hpc] at hmarked
      refine h.keep (.inside (hmarked.1 rfl) rfl) (by rw [hpc]; rfl) fun d hd => ?_
      cases hd
  | @failed c hpc =>
      obtain ⟨howns, hmark⟩ := c.failed_owns th
      have hbefore : th.pc.owns = false := by rcases hpc with hpc | hpc <;> rw [hpc] <;> rfl
      exact .without hmark howns (h.not_owner hbefore)
  | ask hpc =>
      rw [Thread.marked_iff, hpc] at hmarked
      refine h.keep (.inside (hmarked.1 rfl) rfl) (by rw [hpc]; rfl) fun d hd => ?_
      cases hd
  | look hpc =>
      have hbefore : th.pc.owns = false ∧ th.pc.pends = true := by
        rcases hpc with hpc | hpc <;> rw [hpc] <;> exact ⟨rfl, rfl⟩
      refine h.keep (.inside (hmarked.pends hbefore.2) rfl) hbefore.1.symm fun d hd => ?_
      cases hd
  | check hpc =>
      rw [Thread.marked_iff, hpc] at hmarked
      refine h.keep (.inside (hmarked.1 rfl) rfl) (by rw [hpc]; rfl) fun d hd => ?_
      exact .inr (Option.some.inj hd)
  | @add c died hpc =>
      obtain ⟨howns, hpends, hfound⟩ := c.taken_owns died
      refine h.keep (.owner rfl hpends) ?_ fun d hd => .inl ?_
      · rw [hpc]
        exact howns
      · rw [hpc]
        exact hfound.symm.trans hd
  | woken hpc =>
      refine h.keep (.owner rfl rfl) (by rw [hpc]; rfl) fun d hd => ?_
      exact .inr (Option.some.inj hd)
  | wakeFails hpc =>
      refine h.keep (.outside rfl rfl) (by rw [hpc]; rfl) fun d hd => ?_
      cases hd
  | addFailed hpc =>
      refine h.keep (.outside rfl rfl) (by rw [hpc]; rfl) fun d hd => ?_
      cases hd
  | inconsistent hpc hword =>
      -- The owner would have found the bit as it is.
      have howner : w.owner ≠ .thread t := by
        intro howner
        exact hword ⟨h.found howner true (by rw [hpc]; rfl), howner⟩
      exact .without (.outside rfl rfl) rfl howner
  | unowned hpc howner =>
      exact .without (.outside rfl rfl) rfl howner
  | unload hpc howner =>
      refine h.keep (.inside rfl rfl) (by rw [hpc]; rfl) fun d hd => ?_
      exact .inr (Option.some.inj hd)
  | unlockPi hpc =>
      rw [Thread.marked_iff, hpc] at hmarked
      refine h.keep (.inside (hmarked.1 rfl) rfl) (by rw [hpc]; rfl) fun d hd => ?_
      exact .inl (by rw [hpc]; exact hd)
  | @refused k died hpc howner =>
      obtain ⟨howns, hmark⟩ := k.left_owns died th
      exact .without hmark howns howner

/-- A move takes nobody to the place of an owner. -/
theorem Move.owns (hm : Move w t th th') (howns : th'.pc.owns = true) : th.pc.owns = true := by
  cases hm with
  | call | swapIn | ask | look | wakeFails | addFailed | inconsistent | unowned => cases howns
  | @failed c => rw [(c.failed_owns th).1] at howns; cases howns
  | @refused k died => rw [(k.left_owns died th).1] at howns; cases howns
  | check hpc | add hpc | woken hpc | unload hpc | unlockPi hpc => rw [hpc]; rfl

/-- The other threads, where the word keeps its owner and the bit. -/
theorem Place.congr {w' : Word T} (h : Place w t th) (howner : w'.owner = w.owner)
    (hdied : w'.died = w.died) : Place w' t th where
  marked := h.marked
  owned := fun howns => howner ▸ h.owned howns
  held := fun ho => h.held (howner ▸ ho)
  found := fun ho died hd => hdied.trans (h.found (howner ▸ ho) died hd)

theorem Place.spoil (h : Place w t th) : Place w.spoil t th where
  marked := h.marked
  owned := fun _ => .inr rfl
  held := fun ho => by cases ho
  found := fun ho => by cases ho

/-! ## The moves do not spoil -/

/-- On the way to a mutex that is not recoverable. -/
def Pc.spoils : Pc → Bool
  | .unload _ died | .swapOut _ died | .unlockPi _ died => died
  | .mark _ => true
  | _ => false

theorem Call.taken_spoils (c : Call) (died : Bool) : (c.taken died).spoils = false := by
  cases c with
  | lock => cases died <;> rfl
  | tryLock => cases died <;> rfl
  | regain e => cases e <;> rfl

theorem Call.failed_spoils (c : Call) (th : Thread) : (c.failed th).pc.spoils = false := by
  cases c <;> rfl

theorem Then.thread_spoils (k : Then) (listed : Bool) : (k.thread listed).pc.spoils = false := by
  cases k <;> rfl

theorem Pc.spoils_of_given {pc pc' : Pc} (h : pc.given = some pc') : pc'.spoils = false := by
  cases pc with
  | ask | asleep => cases h; rfl
  | _ => cases h

/-- A move that does not start on the way does not end there: what the thread has found of the bit
is how it is. -/
theorem Move.spoils {w : Word T} {t : T} {th th' : Thread} (hm : Move w t th th')
    (h : Place w t th) (hspoils : th.pc.spoils = false) : th'.pc.spoils = false := by
  cases hm with
  | call | swapIn | ask | look | check | woken | wakeFails | addFailed | inconsistent | unowned => rfl
  | @failed c => exact c.failed_spoils th
  | @add c died => exact c.taken_spoils died
  | @unload k died hpc howner =>
      rw [hpc] at hspoils
      exact (h.found howner died (by rw [hpc]; rfl)).trans hspoils
  | unlockPi hpc =>
      rw [hpc] at hspoils
      exact hspoils
  | @refused k died hpc =>
      rw [hpc] at hspoils
      obtain rfl : died = false := hspoils
      exact k.thread_spoils th.listed

/-! ## The induction step -/

variable {s : State T}

/-- While one thread is at the place of an owner, no other one is. -/
theorem Inv.others (h : Inv s) (howns : (s.threads t).pc.owns = true) (t' : T) (hne : t' ≠ t) :
    (s.threads t').pc.owns = false := by
  cases h' : (s.threads t').pc.owns with
  | false => rfl
  | true => exact absurd (h.alone t' t h' howns) hne

/-- Nobody is at the place of an owner of a free mutex. -/
theorem Inv.owns_of_free (h : Inv s) (hfree : s.word.owner = .free) (t : T) :
    (s.threads t).pc.owns = false := by
  cases howns : (s.threads t).pc.owns with
  | false => rfl
  | true =>
      rcases (h.places t).owned howns with howner | howner <;> rw [hfree] at howner <;> cases howner

theorem Word.unlocked_owner (died : Bool) :
    (∀ t : T, (Word.unlocked died : Word T).owner ≠ .thread t) ∧
      ((Word.unlocked died : Word T).owner = .nobody → (Word.unlocked died : Word T).died = true) := by
  cases died with
  | false => exact ⟨fun t ho => (by cases ho), fun ho => (by cases ho)⟩
  | true => exact ⟨fun t ho => (by cases ho), fun _ => rfl⟩

variable [DecidableEq T]

/-- A thread and the word change; what is to be checked. -/
theorem Inv.set (h : Inv s) (hself : Place w t th) (hothers : ∀ t', t' ≠ t → Place w t' (s.threads t'))
    (halone : th.pc.owns = true → ∀ t', t' ≠ t → (s.threads t').pc.owns = false)
    (hspoiled : w.owner = .nobody → w.died = true) : Inv (s.set t w th) where
  places := by
    intro t'
    by_cases hne : t' = t
    · subst hne
      simpa only [State.set, Function.update_self] using hself
    · simpa only [State.set, Function.update_of_ne hne] using hothers t' hne
  alone := by
    intro t₁ t₂ h₁ h₂
    simp only [State.set] at h₁ h₂
    by_cases hne₁ : t₁ = t <;> by_cases hne₂ : t₂ = t
    · rw [hne₁, hne₂]
    · rw [hne₁, Function.update_self] at h₁
      rw [Function.update_of_ne hne₂, halone h₁ t₂ hne₂] at h₂
      cases h₂
    · rw [hne₂, Function.update_self] at h₂
      rw [Function.update_of_ne hne₁, halone h₂ t₁ hne₁] at h₁
      cases h₁
    · rw [Function.update_of_ne hne₁] at h₁
      rw [Function.update_of_ne hne₂] at h₂
      exact h.alone t₁ t₂ h₁ h₂
  spoiled := hspoiled

theorem Inv.move (h : Inv s) (hm : Move s.word t (s.threads t) th) : Inv (s.set t s.word th) :=
  h.set (hm.place (h.places t)) (fun t' _ => h.places t') (fun howns => h.others (hm.owns howns))
    h.spoiled

/-- A thread takes the free mutex. -/
theorem Inv.take (h : Inv s) (hfree : s.word.owner = .free) (hmarked : th.Marked)
    (howns : th.pc.owns = true) (howner : w.owner = .thread t)
    (hfound : ∀ died, th.pc.found = some died → w.died = died) : Inv (s.set t w th) := by
  have hplace : Place w t th :=
    { marked := hmarked
      owned := fun _ => .inl howner
      held := fun _ => howns
      found := fun _ => hfound }
  refine h.set hplace (fun t' hne => ?_) (fun _ t' _ => h.owns_of_free hfree t') fun ho => ?_
  · refine .without (h.places t').marked (h.owns_of_free hfree t') fun ho => hne ?_
    rw [howner] at ho
    cases ho
    rfl
  · rw [howner] at ho
    cases ho

/-- The owner leaves the mutex, to no thread. -/
theorem Inv.leave (h : Inv s) (howner : s.word.owner = .thread t) (hmarked : th.Marked)
    (howns : th.pc.owns = false) (hw : ∀ t', w.owner ≠ .thread t')
    (hspoiled : w.owner = .nobody → w.died = true) : Inv (s.set t w th) := by
  have halone := h.others ((h.places t).held howner)
  refine h.set (.without hmarked howns (hw t)) (fun t' hne => ?_) (fun hth => ?_) hspoiled
  · exact .without (h.places t').marked (halone t' hne) (hw t')
  · rw [howns] at hth
    cases hth

/-- A thread that has nothing goes somewhere else where it has nothing. -/
theorem Inv.away (h : Inv s) (howner : s.word.owner ≠ .thread t) (hmarked : th.Marked)
    (howns : th.pc.owns = false) : Inv (s.set t s.word th) := by
  refine h.set (.without hmarked howns howner) (fun t' _ => h.places t') (fun hth => ?_) h.spoiled
  rw [howns] at hth
  cases hth

theorem Inv.die (h : Inv s) (t : T) : Inv (s.die t) := by
  dsimp only [State.die]
  split
  next hword =>
    exact h.leave hword.1 (.outside rfl rfl) rfl (fun t' ho => by cases ho) fun ho => by cases ho
  next hword =>
    -- The kernel finds the mutex of its owner.
    refine h.away (fun howner => hword ⟨howner, ?_⟩) (.outside rfl rfl) rfl
    exact (h.places t).marked.seen ((h.places t).held howner)

theorem inv_step {u : State T} {a : Action T} (h : Inv s) (hstep : step s a = some u) : Inv u := by
  cases step_cases hstep with
  | move hm => exact h.move hm
  | @back a t ret died k hpc ha =>
      have hmarked := (h.places t).marked.lists (by rw [hpc]; rfl)
      refine h.set ?_ (fun t' _ => h.places t') (fun _ => h.others (by rw [hpc]; rfl)) h.spoiled
      exact (h.places t).keep (.owner hmarked rfl) (by rw [hpc]; rfl) fun d hd =>
        .inl (by rw [hpc]; exact hd)
  | @swapIn t c hpc hzero =>
      have hpending := (h.places t).marked.pends (by rw [hpc]; rfl)
      refine h.take ?_ (.inside hpending rfl) rfl rfl fun died hd => ?_
      · rw [hzero]
        rfl
      · exact Option.some.inj hd
  | @grant t waiters pc hgiven hfree =>
      obtain ⟨howns, -, hlists, hfound, -, hpends⟩ := Pc.owns_of_given hgiven
      refine h.take hfree (.inside ((h.places t).marked.pends hpends) hlists) howns rfl fun d hd => ?_
      rw [hfound] at hd
      cases hd
  | @block t =>
      refine h.set ((h.places t).congr rfl rfl) (fun t' _ => (h.places t').congr rfl rfl)
        (fun howns => h.others howns) h.spoiled
  | @consistent t k hpc howner =>
      have hmarked := (h.places t).marked.lists (by rw [hpc]; rfl)
      have halone := h.others ((h.places t).held howner)
      have hplace : Place { s.word with died := false } t
          { s.threads t with pc := .unload k false } :=
        { marked := .owner hmarked rfl
          owned := fun _ => .inl howner
          held := fun _ => rfl
          found := fun _ died hd => Option.some.inj hd }
      refine h.set hplace (fun t' hne => ?_) (fun _ => halone) fun ho => ?_
      · refine .without (h.places t').marked (halone t' hne) fun ho => hne ?_
        rw [howner] at ho
        cases ho
        rfl
      · rw [howner] at ho
        cases ho
  | @swapOut t k died hpc hword =>
      have howner : s.word.owner = .thread t := by rw [hword]; rfl
      obtain ⟨howns, hmarked⟩ := k.thread_owns (s.threads t).listed
      obtain ⟨hw, hspoiled⟩ := Word.unlocked_owner (T := T) died
      exact h.leave howner hmarked howns hw hspoiled
  | @freed t k died hpc howner =>
      obtain ⟨howns, hmarked⟩ := k.left_owns died (s.threads t)
      exact h.leave howner hmarked howns (fun t' ho => by cases ho) fun ho => by cases ho
  | @handOver t t' k died pc hpc howner hgiven =>
      obtain ⟨howns, hmarked⟩ := k.left_owns died (s.threads t)
      have hfreed : Inv (s.set t Word.zero (k.left died (s.threads t))) :=
        h.leave howner hmarked howns (fun t' ho => by cases ho) fun ho => by cases ho
      obtain ⟨howns', -, hlists, hfound, -, hpends⟩ := Pc.owns_of_given hgiven
      refine hfreed.take rfl (.inside ((h.places t').marked.pends hpends) hlists) howns' rfl ?_
      intro d hd
      rw [hfound] at hd
      cases hd
  | @mark t k hpc =>
      obtain ⟨howns, hmarked⟩ := k.thread_owns (s.threads t).listed
      refine h.set (.without hmarked howns fun ho => by cases ho)
        (fun t' _ => (h.places t').spoil) (fun hth => ?_) fun _ => rfl
      rw [howns] at hth
      cases hth
  | die => exact h.die _

theorem inv_of_run {actions : List (Action T)} {u : State T}
    (hrun : (machine T).run actions = some u) : Inv u :=
  Machine.invariant inv_init (fun _ _ _ => inv_step) hrun

/-! ## One holder -/

variable {actions : List (Action T)} {u : State T}

/-- **One holder.**  While a thread holds the mutex no other one does, whatever the order of their
accesses and whoever died. -/
theorem one_holder (hrun : (machine T).run actions = some u) {t t' : T} {ret died : Bool}
    (ht : (u.threads t).pc = .hold ret died) (hne : t' ≠ t) (ret' died' : Bool) :
    (u.threads t').pc ≠ .hold ret' died' := by
  intro ht'
  exact hne ((inv_of_run hrun).alone t' t (by rw [ht']; rfl) (by rw [ht]; rfl))

/-- The accesses of an undisturbed `lock`. -/
def locks (t : Bool) : List (Action Bool) :=
  [.lock t, .next t, .next t, .next t]

/-- One thread has the mutex, and the other one waits for it in the kernel. -/
def contended : List (Action Bool) :=
  locks true ++ [.lock false, .next false, .next false, .block false]

theorem one_holder_contended :
    ∃ u, (machine Bool).run contended = some u ∧ (u.threads false).pc ≠ .hold true false := by
  have hany : ((machine Bool).run contended).any
      (fun u => decide ((u.threads true).pc = .hold true false)) = true := by decide
  obtain ⟨u, hrun, ht⟩ := Machine.exists_of_any hany
  exact ⟨u, hrun, one_holder hrun ht Bool.false_ne_true true false⟩

/-! ## A lock that runs alone -/

/-- The thread whose step it is. -/
def Action.thread : Action T → T
  | .lock t | .tryLock t | .unlock t | .wait t | .next t | .grant t _ | .block t | .interrupt t
  | .refuse t | .wake t _ | .wakeFails t | .handOver t _ | .die t => t

@[simp] theorem set_word (s : State T) (t : T) (w : Word T) (th : Thread) :
    (s.set t w th).word = w := rfl

@[simp] theorem set_self (s : State T) (t : T) (w : Word T) (th : Thread) :
    (s.set t w th).threads t = th := by
  unfold State.set
  exact Function.update_self ..

@[simp] theorem set_set (s : State T) (t : T) (w w' : Word T) (th th' : Thread) :
    (s.set t w th).set t w' th' = s.set t w' th' := by
  unfold State.set
  rw [Function.update_idem]

/-- `lock` at the mutex that is 0. -/
theorem lock_of_zero (s : State T) (t : T) (listed : Bool) :
    (machine T).runFrom (s.set t Word.zero ⟨.look .lock, listed, true⟩)
        [.next t, .next t, .next t] =
      some (s.set t (Word.heldBy t) ⟨.hold true false, true, false⟩) := by
  simp [Machine.runFrom, machine, step, State.next, Word.notRecoverable, Word.zero, Call.taken]

/-- `lock` at another mutex without an owner, up to the list. -/
theorem lock_of_free (s : State T) (t : T) (listed : Bool) {w : Word T} (hfree : w.owner = .free)
    (hzero : w ≠ Word.zero) :
    (machine T).runFrom (s.set t w ⟨.look .lock, listed, true⟩)
        [.next t, .next t, .grant t false, .next t, .next t] =
      some (s.set t ⟨.thread t, w.died, false⟩ ⟨Call.taken w.died .lock, true, false⟩) := by
  simp [Machine.runFrom, machine, step, State.next, Word.notRecoverable, Pc.given, hfree, hzero]

/-- The mutex of an owner that died is mended, unlocked and 0 again. -/
theorem mend_of_died (s : State T) (t : T) :
    (machine T).runFrom (s.set t ⟨.thread t, true, false⟩ ⟨.consistent .again, true, false⟩)
        [.next t, .next t, .next t] =
      some (s.set t Word.zero ⟨.look .lock, false, true⟩) := by
  simp [Machine.runFrom, machine, step, State.next, Word.heldBy, Word.unlocked, Then.thread]

/-- **Nobody keeps it.**  When no call is running and nobody holds the mutex, a `lock` that runs
alone gets it, unless it is not recoverable, and finds it as after an `unlock`: whoever died, and
wherever. -/
theorem lock_of_quiet {s : State T} (hrun : (machine T).run actions = some s)
    (hquiet : ∀ t, (∃ ret, (s.threads t).pc = .out ret) ∨ (s.threads t).pc = .dead)
    (hword : s.word.notRecoverable = false) {t : T} {ret : Bool}
    (ht : (s.threads t).pc = .out ret) :
    ∃ rest u, (∀ a ∈ rest, a.thread = t) ∧ (machine T).runFrom s (.lock t :: rest) = some u ∧
      (u.threads t).pc = .hold true false ∧ u.word = Word.heldBy t := by
  have hinv := inv_of_run hrun
  have hfree : s.word.owner = .free := by
    cases howner : s.word.owner with
    | free => rfl
    | thread t' =>
        have hheld := (hinv.places t').held howner
        rcases hquiet t' with ⟨ret', hpc⟩ | hpc <;> rw [hpc] at hheld <;> cases hheld
    | nobody =>
        simp only [Word.notRecoverable, howner, hinv.spoiled howner] at hword
        cases hword
  let s' : State T := s.set t s.word ⟨.look .lock, (s.threads t).listed, true⟩
  have hcall : (machine T).step s (.lock t) = some s' := by simp [machine, step, ht, s']
  by_cases hzero : s.word = Word.zero
  · have hlock := lock_of_zero s t (s.threads t).listed
    rw [← hzero] at hlock
    exact ⟨_, _, by simp [Action.thread], (Machine.runFrom_cons hcall).mpr hlock, by simp, rfl⟩
  · have hlock := lock_of_free s t (s.threads t).listed hfree hzero
    cases hdied : s.word.died with
    | false =>
        rw [hdied] at hlock
        exact ⟨_, _, by simp [Action.thread], (Machine.runFrom_cons hcall).mpr hlock,
          by simp [Call.taken], rfl⟩
    | true =>
        rw [hdied] at hlock
        have hmend := (Machine.runFrom_append _ _).mpr ⟨_, hlock, mend_of_died s t⟩
        have hagain := (Machine.runFrom_append _ _).mpr ⟨_, hmend, lock_of_zero s t false⟩
        exact ⟨_, _, by simp [Action.thread], (Machine.runFrom_cons hcall).mpr hagain, by simp, rfl⟩

/-- The holder dies. -/
def widowed : List (Action Bool) :=
  locks true ++ [.die true]

theorem lock_of_quiet_widowed :
    ∃ s, (machine Bool).run widowed = some s ∧
      ∃ rest u, (∀ a ∈ rest, a.thread = false) ∧
        (machine Bool).runFrom s (.lock false :: rest) = some u ∧
        (u.threads false).pc = .hold true false ∧ u.word = Word.heldBy false := by
  have hany : ((machine Bool).run widowed).any
      (fun s => decide ((∀ t, (∃ ret, (s.threads t).pc = .out ret) ∨ (s.threads t).pc = .dead) ∧
        s.word.notRecoverable = false ∧ (s.threads false).pc = .out false)) = true := by decide
  obtain ⟨s, hrun, hquiet, hword, ht⟩ := Machine.exists_of_any hany
  exact ⟨s, hrun, lock_of_quiet hrun hquiet hword ht⟩

/-! ## Mutexes that stay recoverable -/

/-- Nobody gives the mutex back, to unlock it or to wait, that found an owner dead after a wait. -/
def clean (s : State T) : Action T → Bool
  | .unlock t | .wait t =>
      match (s.threads t).pc with
      | .hold _ died => !died
      | _ => true
  | _ => true

/-- Nobody is on that way, or has gone it. -/
structure Sane (s : State T) : Prop where
  inv : Inv s
  spoils : ∀ t, (s.threads t).pc.spoils = false
  owner : s.word.owner ≠ .nobody

theorem spoils_set {s : State T} (h : ∀ t, (s.threads t).pc.spoils = false) {t : T} {w : Word T}
    {th : Thread} (hth : th.pc.spoils = false) : ∀ t', ((s.set t w th).threads t').pc.spoils = false :=
  Threads.forall_update (P := fun th : Thread => th.pc.spoils = false) hth fun t' _ => h t'

theorem Sane.step {s : State T} {a : Action T} (h : Sane s) (hclean : clean s a = true)
    (hstep : step s a = some u) : Sane u := by
  have hinv := inv_step h.inv hstep
  have hleft : ∀ {t : T} {k : Then} {died : Bool}, (s.threads t).pc = .unlockPi k died →
      (k.left died (s.threads t)).pc.spoils = false := by
    intro t k died hpc
    have hspoils := h.spoils t
    rw [hpc] at hspoils
    obtain rfl : died = false := hspoils
    exact k.thread_spoils _
  cases step_cases hstep with
  | move hm => exact ⟨hinv, spoils_set h.spoils (hm.spoils (h.inv.places _) (h.spoils _)), h.owner⟩
  | @back a t ret died k hpc ha =>
      refine ⟨hinv, spoils_set h.spoils ?_, h.owner⟩
      rcases ha with rfl | rfl <;> simpa [clean, hpc, Pc.spoils] using hclean
  | swapIn => exact ⟨hinv, spoils_set h.spoils rfl, fun ho => by cases ho⟩
  | grant hgiven =>
      exact ⟨hinv, spoils_set h.spoils (Pc.spoils_of_given hgiven), fun ho => by cases ho⟩
  | block => exact ⟨hinv, spoils_set h.spoils (h.spoils _), h.owner⟩
  | consistent => exact ⟨hinv, spoils_set h.spoils rfl, h.owner⟩
  | @swapOut t k died hpc hword =>
      have hspoils := h.spoils t
      rw [hpc] at hspoils
      obtain rfl : died = false := hspoils
      exact ⟨hinv, spoils_set h.spoils (k.thread_spoils _), fun ho => by cases ho⟩
  | freed hpc => exact ⟨hinv, spoils_set h.spoils (hleft hpc), fun ho => by cases ho⟩
  | handOver hpc howner hgiven =>
      refine ⟨hinv, spoils_set (spoils_set h.spoils (hleft hpc)) ?_, fun ho => by cases ho⟩
      exact Pc.spoils_of_given hgiven
  | @mark t k hpc =>
      have hspoils := h.spoils t
      rw [hpc] at hspoils
      cases hspoils
  | @die t =>
      refine ⟨hinv, spoils_set h.spoils rfl, fun ho => ?_⟩
      dsimp only [State.die, State.set] at ho
      split at ho
      · cases ho
      · exact h.owner ho

/-- **Recovery.**  Threads may die anywhere: the mutex stays recoverable in every run in which
nobody that regained it in a wait from an owner that died unlocks it or waits with it. -/
theorem recoverable_of_clean (hrun : (machine T).run actions = some u)
    (hclean : (machine T).Guarded (fun s a => clean s a = true) actions) :
    u.word.notRecoverable = false := by
  have hinit : Sane (machine T).init := ⟨inv_init, fun _ => rfl, fun ho => by cases ho⟩
  have hsane : Sane u :=
    Machine.invariant_of_guarded hinit (fun _ _ _ h hclean => h.step hclean) hclean hrun
  have howner := hsane.owner
  unfold Word.notRecoverable
  split
  next ho => exact absurd ho howner
  next => rfl

/-- The holder dies; the other thread mends the mutex, has it and unlocks it. -/
def mended : List (Action Bool) :=
  widowed ++ [.lock false, .next false, .next false, .grant false false] ++
    List.replicate 8 (.next false) ++ [.unlock false, .next false, .next false]

theorem recoverable_of_clean_mended :
    ∃ u, (machine Bool).run mended = some u ∧ (u.threads false).pc = .out true ∧
      u.word.notRecoverable = false := by
  have hany : ((machine Bool).run mended).any
      (fun u => decide ((u.threads false).pc = .out true)) = true := by decide
  obtain ⟨u, hrun, ht⟩ := Machine.exists_of_any hany
  exact ⟨u, hrun, ht, recoverable_of_clean hrun (by decide)⟩

/-! ## Mutexes that do not -/

/-- The mutex is not recoverable, and nobody has it. -/
structure Lost (s : State T) : Prop where
  owner : s.word.owner = .nobody
  died : s.word.died = true
  owns : ∀ t, (s.threads t).pc.owns = false

theorem owns_set {s : State T} (h : ∀ t, (s.threads t).pc.owns = false) {t : T} {w : Word T}
    {th : Thread} (hth : th.pc.owns = false) : ∀ t', ((s.set t w th).threads t').pc.owns = false :=
  Threads.forall_update (P := fun th : Thread => th.pc.owns = false) hth fun t' _ => h t'

theorem Lost.step {s : State T} {a : Action T} (h : Lost s) (hstep : step s a = some u) : Lost u := by
  have hno : ∀ {t : T}, s.word.owner ≠ .thread t := by
    intro t ho
    rw [h.owner] at ho
    cases ho
  cases step_cases hstep with
  | @move a t th hm =>
      refine ⟨h.owner, h.died, owns_set h.owns ?_⟩
      cases howns : th.pc.owns with
      | false => rfl
      | true => exact (hm.owns howns).symm.trans (h.owns t)
  | @back a t ret died k hpc ha =>
      have howns := h.owns t
      rw [hpc] at howns
      cases howns
  | swapIn hpc hzero =>
      have howner := h.owner
      rw [hzero] at howner
      cases howner
  | grant hgiven hfree =>
      have howner := h.owner
      rw [hfree] at howner
      cases howner
  | block => exact ⟨h.owner, h.died, owns_set h.owns (h.owns _)⟩
  | consistent hpc howner => exact absurd howner hno
  | swapOut hpc hword =>
      have howner := h.owner
      rw [hword] at howner
      cases howner
  | freed hpc howner => exact absurd howner hno
  | handOver hpc howner => exact absurd howner hno
  | @mark t k hpc => exact ⟨rfl, rfl, owns_set h.owns (k.thread_owns _).1⟩
  | @die t =>
      have hword : (s.die t).word = s.word := if_neg fun hand => hno hand.1
      refine ⟨?_, ?_, owns_set h.owns rfl⟩
      · rw [hword]
        exact h.owner
      · rw [hword]
        exact h.died

theorem Lost.run {s v : State T} {rest : List (Action T)} (h : Lost s)
    (hrest : (machine T).runFrom s rest = some v) : Lost v := by
  have hall : (machine T).GuardedFrom (fun _ _ => True) s rest :=
    Machine.guardedFrom_of_mem s fun _ _ => trivial
  exact Machine.invariant_of_guardedFrom (fun _ _ _ h _ => h.step) h hall hrest

theorem unlock_of_died (s : State T) (t : T) (ret listed pending waiters : Bool) :
    (machine T).runFrom (s.set t ⟨.thread t, true, waiters⟩ ⟨.hold ret true, listed, pending⟩)
        [.unlock t, .next t, .next t, .handOver t none, .next t] =
      some (s.set t ⟨.nobody, true, false⟩ ⟨.out true, false, false⟩) := by
  simp [Machine.runFrom, machine, step, State.next, State.handOver, Word.heldBy, Word.zero,
    Word.spoil, Then.left, Then.thread]

/-- One thread waits, the other one takes the mutex and dies. -/
def wokenByDeath : List (Action Bool) :=
  locks true ++ [.wait true, .next true, .next true] ++ locks false ++
    [.die false, .grant true false, .next true]

end DzIpc.LibIpc.RobustMutex
