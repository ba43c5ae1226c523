import DzIpc.TopicCat.Threads

/-!
# What the echo tool is attached to, and when it sleeps

* `attached_best`: between two checks the sniffer in place is one for the best entry of the last
  snapshot, and there is none just if no entry can be attached to.
* `sleeps_on`: the display sleeps on while a sniffer is attached only if a notification came
  between the test of its predicate and its sleep; and then it never wakes by itself.
-/

namespace DzIpc.TopicCat

open Control.InfoPool

variable {opts : CatOptions}

/-- What a step does to what the polling thread writes. -/
theorem link_cases {s t : CatState} {a : CatAction} (hstep : catStep opts s a = some t) :
    t.link = s.link ∨
      (∃ entries, s.link.poller = .polling ∧ t.link = s.link.check opts entries) ∨
      (a = .poll ∧ s.link.pollStep s.running = some t.link) := by
  cases a with
  | snapshot entries =>
      obtain ⟨hpoller, heq⟩ := Option.ite_none_right_eq_some.mp hstep
      cases heq
      exact .inr (.inl ⟨entries, hpoller, rfl⟩)
  | poll =>
      cases hpoll : s.link.pollStep s.running with
      | none =>
          simp only [catStep, hpoll] at hstep
          cases hstep
      | some link =>
          simp only [catStep, hpoll] at hstep
          cases hstep
          exact .inr (.inr ⟨rfl, rfl⟩)
  | fetch request response =>
      obtain ⟨-, heq⟩ := Option.ite_none_right_eq_some.mp hstep
      cases heq
      exact .inl rfl
  | display =>
      cases hview : s.view.step opts s.running s.link with
      | none =>
          simp only [catStep, hview] at hstep
          cases hstep
      | some view =>
          simp only [catStep, hview] at hstep
          cases hstep
          exact .inl rfl
  | spurious =>
      obtain ⟨-, heq⟩ := Option.ite_none_right_eq_some.mp hstep
      cases heq
      exact .inl rfl
  | interrupt =>
      cases hstep
      exact .inl rfl
  | handlerNotify =>
      obtain ⟨-, heq⟩ := Option.ite_none_left_eq_some.mp hstep
      cases heq
      exact .inl rfl

/-! ## The attachment -/

namespace Attachment

/-- What is chosen of the last snapshot. -/
def choice (opts : CatOptions) (l : Attachment) : Selection :=
  selectSnifferEntry opts l.snapshot

/-- The last sniffer that was built is in place, and was built for this. -/
def Holds (l : Attachment) (sel : Selection) : Prop :=
  ∃ before, l.built = before ++ [sel] ∧ l.sniffer = some before.length

/-- Between two checks. -/
structure Settled (opts : CatOptions) (l : Attachment) : Prop where
  attached : l.connected = true → l.Holds l.curSel ∧ l.linkType = l.curSel.shm
  current : l.connected = true → l.curSel.sameChannel (l.choice opts) = true
  detached : l.connected = false → l.sniffer = none ∧ (l.choice opts).found = false

/-- What holds where the polling thread stands. -/
def Stage (opts : CatOptions) (l : Attachment) : Prop :=
  match l.poller with
  | .atLoop | .polling | .finished => l.Settled opts
  | .clearing => (l.choice opts).found = false
  | .disconnecting => l.sniffer = none ∧ (l.choice opts).found = false
  | .building sel => sel = l.choice opts ∧ sel.found = true
  | .linking sel => sel = l.choice opts ∧ sel.found = true ∧ l.Holds sel
  | .counting sel =>
      sel = l.choice opts ∧ sel.found = true ∧ l.Holds sel ∧ l.linkType = sel.shm
  | .connecting =>
      l.curSel = l.choice opts ∧ l.curSel.found = true ∧ l.Holds l.curSel ∧
        l.linkType = l.curSel.shm
  | .notifying =>
      l.connected = true ∧ l.curSel = l.choice opts ∧ l.curSel.found = true ∧
        l.Holds l.curSel ∧ l.linkType = l.curSel.shm

theorem Stage.check {l : Attachment} (h : l.Stage opts) (hpoller : l.poller = .polling)
    (entries : List EntrySnapshot) : (l.check opts entries).Stage opts := by
  have hsettled : l.Settled opts := by
    simp only [Stage, hpoller] at h
    exact h
  cases hfound : (selectSnifferEntry opts entries).found with
  | false =>
      cases hconnected : l.connected with
      | true =>
          have hnext : (l.check opts entries).poller = .clearing := by
            simp [Attachment.check, hfound, hconnected]
          simp only [Stage, hnext]
          exact hfound
      | false =>
          have hnext : (l.check opts entries).poller = .disconnecting := by
            simp [Attachment.check, hfound, hconnected]
          simp only [Stage, hnext]
          exact ⟨(hsettled.detached hconnected).1, hfound⟩
  | true =>
      cases hsame : l.connected && l.curSel.sameChannel (selectSnifferEntry opts entries) with
      | false =>
          have hnext : (l.check opts entries).poller =
              .building (selectSnifferEntry opts entries) := by
            simp [Attachment.check, hfound, hsame]
          simp only [Stage, hnext]
          exact ⟨rfl, hfound⟩
      | true =>
          have hnext : (l.check opts entries).poller = .atLoop := by
            simp [Attachment.check, hfound, hsame]
          obtain ⟨hconnected, hchannel⟩ := Bool.and_eq_true_iff.mp hsame
          simp only [Stage, hnext]
          refine ⟨fun _ => hsettled.attached hconnected, fun _ => hchannel, fun hoff => ?_⟩
          exact absurd (hconnected.symm.trans hoff) (by decide)

theorem sameChannel_self {sel : Selection} (hfound : sel.found = true) :
    sel.sameChannel sel = true := by
  simp [Selection.sameChannel, hfound]

theorem Stage.pollStep {l l' : Attachment} {running : Bool} (h : l.Stage opts)
    (hstep : l.pollStep running = some l') : l'.Stage opts := by
  unfold Attachment.pollStep at hstep
  unfold Stage at h
  cases hpoller : l.poller with
  | atLoop =>
      simp only [hpoller] at h hstep
      cases hstep
      cases running with
      | true => exact ⟨h.attached, h.current, h.detached⟩
      | false => exact ⟨h.attached, h.current, h.detached⟩
  | polling =>
      simp only [hpoller] at hstep
      cases hstep
  | clearing =>
      simp only [hpoller] at h hstep
      cases hstep
      exact ⟨rfl, h⟩
  | disconnecting =>
      simp only [hpoller] at h hstep
      cases hstep
      exact ⟨fun hon => Bool.noConfusion hon, fun hon => Bool.noConfusion hon, fun _ => h⟩
  | building sel =>
      simp only [hpoller] at h hstep
      cases hstep
      exact ⟨h.1, h.2, l.built, rfl, rfl⟩
  | linking sel =>
      simp only [hpoller] at h hstep
      cases hstep
      exact ⟨h.1, h.2.1, h.2.2, rfl⟩
  | counting sel =>
      simp only [hpoller] at h hstep
      cases hstep
      exact h
  | connecting =>
      simp only [hpoller] at h hstep
      cases hstep
      exact ⟨rfl, h⟩
  | notifying =>
      simp only [hpoller] at h hstep
      cases hstep
      obtain ⟨hconnected, hchoice, hfound, hholds, hlabel⟩ := h
      refine ⟨fun _ => ⟨hholds, hlabel⟩, fun _ => ?_, fun hoff => ?_⟩
      · change l.curSel.sameChannel (l.choice opts) = true
        rw [← hchoice]
        exact sameChannel_self hfound
      · exact absurd (hconnected.symm.trans hoff) (by decide)
  | finished =>
      simp only [hpoller] at hstep
      cases hstep

end Attachment

theorem stage_init : CatState.init.link.Stage opts :=
  ⟨fun hon => Bool.noConfusion hon, fun hon => Bool.noConfusion hon, fun _ => ⟨rfl, rfl⟩⟩

theorem stage_step {s t : CatState} {a : CatAction} (h : s.link.Stage opts)
    (hstep : catStep opts s a = some t) : t.link.Stage opts := by
  rcases link_cases hstep with heq | ⟨entries, hpoller, heq⟩ | ⟨-, hpoll⟩
  · exact heq ▸ h
  · exact heq ▸ h.check hpoller entries
  · exact h.pollStep hpoll

theorem stage_of_run {actions : List CatAction} {s : CatState}
    (hrun : (catMachine opts).run actions = some s) : s.link.Stage opts := by
  let Inv : CatState → Prop := fun s => s.link.Stage opts
  have hinv : Inv s :=
    Machine.invariant (M := catMachine opts) stage_init
      (fun _ _ _ h hstep => stage_step h hstep) hrun
  exact hinv

/-- **The attachment.**  Between two checks of any run the tool is connected just if the last
snapshot has an entry that can be attached to; the sniffer in place is the last one that was built,
for the transport and the domain of a best entry, and the label names this transport. -/
theorem attached_best {actions : List CatAction} {s : CatState}
    (hrun : (catMachine opts).run actions = some s) (hidle : s.link.poller = .atLoop) :
    (s.link.connected = true ↔ ∃ e, IsBest opts s.link.snapshot e) ∧
      (s.link.connected = false → s.link.sniffer = none) ∧
      (s.link.connected = true → ∃ n sel e, s.link.sniffer = some n ∧
        n + 1 = s.link.built.length ∧ s.link.built[n]? = some sel ∧
        IsBest opts s.link.snapshot e ∧ sel.shm = isShmKind e.kind ∧ sel.domainId = e.domainId ∧
        s.link.linkType = sel.shm) := by
  have hsettled : s.link.Settled opts := by
    have hstage := stage_of_run hrun
    simp only [Attachment.Stage, hidle] at hstage
    exact hstage
  have hfull : s.link.connected = true → ∃ n sel e, s.link.sniffer = some n ∧
      n + 1 = s.link.built.length ∧ s.link.built[n]? = some sel ∧
      IsBest opts s.link.snapshot e ∧ sel.shm = isShmKind e.kind ∧ sel.domainId = e.domainId ∧
      s.link.linkType = sel.shm := by
    intro hconnected
    obtain ⟨⟨before, hbuilt, hsniffer⟩, hlabel⟩ := hsettled.attached hconnected
    have hchannel := hsettled.current hconnected
    simp only [Selection.sameChannel, Bool.and_eq_true, decide_eq_true_eq] at hchannel
    obtain ⟨⟨⟨-, hfound⟩, hshm⟩, hdomain⟩ := hchannel
    obtain ⟨e, hbest, htake⟩ := exists_best_of_found hfound
    change s.link.curSel.shm = (selectSnifferEntry opts s.link.snapshot).shm at hshm
    change s.link.curSel.domainId = (selectSnifferEntry opts s.link.snapshot).domainId at hdomain
    rw [htake] at hshm hdomain
    refine ⟨before.length, s.link.curSel, e, hsniffer, ?_, ?_, hbest, hshm, hdomain, hlabel⟩
    · rw [hbuilt, List.length_append, List.length_singleton]
    · rw [hbuilt, List.getElem?_concat_length]
  refine ⟨⟨fun hconnected => ?_, ?_⟩, fun hoff => (hsettled.detached hoff).1, hfull⟩
  · obtain ⟨-, -, e, -, -, -, hbest, -⟩ := hfull hconnected
    exact ⟨e, hbest⟩
  · rintro ⟨e, hbest⟩
    by_contra hoff
    have hnone := (hsettled.detached (Bool.eq_false_iff.mpr hoff)).2
    exact absurd ((found_of_best hbest).symm.trans hnone) (by decide)

/-- The options and entries of the runs below: a publisher on the socket, and one in shared memory
that registered before it. -/
def anyTopic : CatOptions := { topicName := [116], serOrTopic := false, pref := .auto }

def entryOf (slot registerTs : ℕ) (kind : EntryKind) : EntrySnapshot :=
  { slot := slot, kind := kind, pid := 1, registerTs := registerTs, heartbeat := 0
    topicName := [116], typeName := [], domainId := 0, extra := [], inUse := true, alive := true }

/-- A check that builds a sniffer. -/
def rebuild (entries : List EntrySnapshot) : List CatAction :=
  [.poll, .snapshot entries, .poll, .poll, .poll, .poll, .poll]

theorem attached_best_moved :
    ∃ s, (catMachine anyTopic).run (rebuild [entryOf 0 5 .socketPub] ++
        rebuild [entryOf 0 5 .socketPub, entryOf 1 3 .shmPub]) = some s ∧
      s.link.linkType = true ∧
      (s.link.connected = true ↔ ∃ e, IsBest anyTopic s.link.snapshot e) ∧
      (s.link.connected = false → s.link.sniffer = none) ∧
      (s.link.connected = true → ∃ n sel e, s.link.sniffer = some n ∧
        n + 1 = s.link.built.length ∧ s.link.built[n]? = some sel ∧
        IsBest anyTopic s.link.snapshot e ∧ sel.shm = isShmKind e.kind ∧
        sel.domainId = e.domainId ∧ s.link.linkType = sel.shm) := by
  have hany : ((catMachine anyTopic).run (rebuild [entryOf 0 5 .socketPub] ++
      rebuild [entryOf 0 5 .socketPub, entryOf 1 3 .shmPub])).any
      (fun s => decide (s.link.linkType = true ∧ s.link.poller = .atLoop)) = true := by
    decide +kernel
  obtain ⟨s, hrun, hlabel, hidle⟩ := Machine.exists_of_any hany
  exact ⟨s, hrun, hlabel, attached_best hrun hidle⟩

/-! ## The sleep -/

/-- The display sleeps although what it waits for holds, and no notification of it is to come. -/
def CatState.Missed (s : CatState) : Prop :=
  s.view.display = .asleep ∧ (s.link.connected = true ∨ s.running = false) ∧
    s.link.poller ≠ .notifying ∧ s.handlers = 0

/-- The notification does not come between the test of the predicate and the sleep. -/
def Heard (s : CatState) (a : CatAction) : Prop :=
  (a = .poll → s.link.poller = .notifying →
      s.view.display ≠ .testingRunning ∧ s.view.display ≠ .blocking) ∧
    (a = .handlerNotify → s.view.display ≠ .blocking)

/-- Who has found the predicate false is still to be notified once it holds. -/
structure Awaited (s : CatState) : Prop where
  connected : s.view.display = .testingRunning ∨ s.view.display = .blocking ∨
    s.view.display = .asleep → s.link.connected = true → s.link.poller = .notifying
  interrupted : s.view.display = .blocking ∨ s.view.display = .asleep → s.running = false →
    0 < s.handlers

theorem Awaited.not_missed {s : CatState} (h : Awaited s) : ¬ s.Missed := by
  rintro ⟨hasleep, hconnected | hstopped, hpoller, hhandlers⟩
  · exact hpoller (h.connected (.inr (.inr hasleep)) hconnected)
  · have hpos := h.interrupted (.inr hasleep) hstopped
    rw [hhandlers] at hpos
    cases hpos

/-- The predicate was found false, as far as it was tested. -/
def Display.waits : Display → Bool
  | .testingRunning | .blocking | .asleep => true
  | _ => false

theorem awaited_of_not_waits {s : CatState} (h : s.view.display.waits = false) : Awaited s := by
  have hno : ∀ d : Display, d.waits = true → s.view.display ≠ d := by
    rintro d hd rfl
    exact absurd (h.symm.trans hd) (by decide)
  refine ⟨?_, ?_⟩
  · rintro (hd | hd | hd) <;> exact absurd hd (hno _ rfl)
  · rintro (hd | hd) <;> exact absurd hd (hno _ rfl)

/-- A notification wakes who sleeps, and nobody else. -/
theorem display_of_notified {v : Console} {d : Display} (hd : d ≠ .testing)
    (h : v.notified.display = d) : v.display = d ∧ d ≠ .asleep := by
  unfold Console.notified at h
  dsimp only at h
  split at h
  · exact absurd h.symm hd
  · exact ⟨h, h ▸ ‹_›⟩

theorem connected_of_pollStep {l l' : Attachment} {running : Bool}
    (hstep : l.pollStep running = some l') (hpoller : l.poller ≠ .notifying)
    (hconnected : l'.connected = true) : l.connected = true ∨ l'.poller = .notifying := by
  unfold Attachment.pollStep at hstep
  cases h : l.poller with
  | connecting =>
      simp only [h] at hstep
      cases hstep
      exact .inr rfl
  | disconnecting =>
      simp only [h] at hstep
      cases hstep
      cases hconnected
  | notifying => exact absurd h hpoller
  | polling | finished =>
      simp only [h] at hstep
      cases hstep
  | atLoop | clearing | building sel | linking sel | counting sel =>
      simp only [h] at hstep
      cases hstep
      exact .inl hconnected

/-- A step of the polling thread. -/
theorem Awaited.poll {s t : CatState} (h : Awaited s) (hheard : Heard s .poll)
    (hstep : catStep opts s .poll = some t) : Awaited t := by
  cases hpoll : s.link.pollStep s.running with
  | none =>
      simp only [catStep, hpoll] at hstep
      cases hstep
  | some link =>
      simp only [catStep, hpoll] at hstep
      cases hstep
      by_cases hnotify : s.link.poller = .notifying
      · -- who sleeps is woken, and nobody is about to sleep
        obtain ⟨hrunning, hblocking⟩ := hheard.1 rfl hnotify
        rw [if_pos hnotify]
        refine ⟨?_, ?_⟩
        · rintro (hd | hd | hd)
          · exact absurd (display_of_notified (by decide) hd).1 hrunning
          · exact absurd (display_of_notified (by decide) hd).1 hblocking
          · exact absurd rfl (display_of_notified (by decide) hd).2
        · rintro (hd | hd)
          · exact absurd (display_of_notified (by decide) hd).1 hblocking
          · exact absurd rfl (display_of_notified (by decide) hd).2
      · rw [if_neg hnotify]
        refine ⟨fun hd hconnected => ?_, h.interrupted⟩
        rcases connected_of_pollStep hpoll hnotify hconnected with hbefore | hnext
        · exact absurd (h.connected hd hbefore) hnotify
        · exact hnext

/-- A step of the display: it goes to sleep through the two tests. -/
theorem Awaited.display {s t : CatState} (h : Awaited s)
    (hstep : catStep opts s .display = some t) : Awaited t := by
  cases hview : s.view.step opts s.running s.link with
  | none =>
      simp only [catStep, hview] at hstep
      cases hstep
  | some view =>
      simp only [catStep, hview] at hstep
      cases hstep
      unfold Console.step at hview
      cases hd : s.view.display with
      | testing =>
          simp only [hd] at hview
          cases hview
          cases hconnected : s.link.connected with
          | true => exact awaited_of_not_waits rfl
          | false =>
              refine ⟨fun _ hon => absurd (hconnected.symm.trans hon) (by decide), ?_⟩
              rintro (hnext | hnext) <;> cases hnext
      | testingRunning =>
          simp only [hd] at hview
          cases hview
          cases hrunning : s.running with
          | true =>
              refine ⟨fun _ => h.connected (.inl hd), fun _ hoff => ?_⟩
              cases hoff
          | false => exact awaited_of_not_waits rfl
      | blocking =>
          simp only [hd] at hview
          cases hview
          exact ⟨fun _ => h.connected (.inr (.inl hd)), fun _ => h.interrupted (.inl hd)⟩
      | reading =>
          simp only [hd] at hview
          cases hview
          apply awaited_of_not_waits
          unfold Console.readEpoch
          split <;> rfl
      | labelling n request response =>
          simp only [hd] at hview
          cases hview
          exact awaited_of_not_waits rfl
      | asleep | fetching | finished =>
          simp only [hd] at hview
          cases hview
      | atLoop | choosing | inLoop | inLoopState =>
          simp only [hd] at hview
          cases hview
          apply awaited_of_not_waits
          dsimp only
          split <;> rfl

theorem awaited_init : Awaited CatState.init := awaited_of_not_waits rfl

theorem awaited_step {s t : CatState} {a : CatAction} (h : Awaited s) (hheard : Heard s a)
    (hstep : catStep opts s a = some t) : Awaited t := by
  cases a with
  | poll => exact h.poll hheard hstep
  | display => exact h.display hstep
  | snapshot entries =>
      obtain ⟨hpoller, heq⟩ := Option.ite_none_right_eq_some.mp hstep
      cases heq
      refine ⟨fun hd hconnected => ?_, h.interrupted⟩
      exact absurd (hpoller.symm.trans (h.connected hd hconnected)) (by decide)
  | fetch request response =>
      obtain ⟨-, heq⟩ := Option.ite_none_right_eq_some.mp hstep
      cases heq
      apply awaited_of_not_waits
      unfold Console.fetch
      split <;> rfl
  | spurious =>
      obtain ⟨hasleep, heq⟩ := Option.ite_none_right_eq_some.mp hstep
      cases heq
      apply awaited_of_not_waits
      unfold Console.notified
      rw [if_pos hasleep]
      rfl
  | interrupt =>
      cases hstep
      exact ⟨h.connected, fun _ _ => Nat.succ_pos _⟩
  | handlerNotify =>
      obtain ⟨-, heq⟩ := Option.ite_none_left_eq_some.mp hstep
      cases heq
      have hblocking := hheard.2 rfl
      refine ⟨?_, ?_⟩
      · rintro (hd | hd | hd)
        · exact h.connected (.inl (display_of_notified (by decide) hd).1)
        · exact absurd (display_of_notified (by decide) hd).1 hblocking
        · exact absurd rfl (display_of_notified (by decide) hd).2
      · rintro (hd | hd)
        · exact absurd (display_of_notified (by decide) hd).1 hblocking
        · exact absurd rfl (display_of_notified (by decide) hd).2

/-- No further signal, no wait that ends by itself, and no snapshot that names another channel. -/
def CatAction.Quiet (opts : CatOptions) (sel : Selection) : CatAction → Prop
  | .snapshot entries => sel.sameChannel (selectSnifferEntry opts entries) = true
  | .poll | .display | .fetch _ _ => True
  | .spurious | .interrupt | .handlerNotify => False

/-- Since a state in which the display slept, nothing was built, and nobody notified. -/
structure Unwoken (s t : CatState) : Prop where
  view : t.view = s.view
  connected : t.link.connected = true
  curSel : t.link.curSel = s.link.curSel
  idle : t.link.poller = .atLoop ∨ t.link.poller = .polling ∨ t.link.poller = .finished
  handlers : t.handlers = 0

theorem Unwoken.step {s t u : CatState} {a : CatAction} (h : Unwoken s t)
    (hasleep : s.view.display = .asleep) (hquiet : a.Quiet opts s.link.curSel)
    (hstep : catStep opts t a = some u) : Unwoken s u := by
  have hdisplay : t.view.display = .asleep := h.view ▸ hasleep
  cases a with
  | snapshot entries =>
      obtain ⟨-, heq⟩ := Option.ite_none_right_eq_some.mp hstep
      cases heq
      refine ⟨h.view, h.connected, h.curSel, .inl ?_, h.handlers⟩
      have hsame : t.link.curSel.sameChannel (selectSnifferEntry opts entries) = true :=
        h.curSel ▸ hquiet
      have hfound : (selectSnifferEntry opts entries).found = true := by
        simp only [Selection.sameChannel, Bool.and_eq_true] at hsame
        exact hsame.1.1.2
      simp [Attachment.check, hfound, hsame, h.connected]
  | poll =>
      rcases h.idle with hpoller | hpoller | hpoller
      · simp only [catStep, Attachment.pollStep, hpoller] at hstep
        cases hstep
        refine ⟨h.view, h.connected, h.curSel, .inr ?_, h.handlers⟩
        cases t.running with
        | true => exact .inl rfl
        | false => exact .inr rfl
      · simp only [catStep, Attachment.pollStep, hpoller] at hstep
        cases hstep
      · simp only [catStep, Attachment.pollStep, hpoller] at hstep
        cases hstep
  | fetch request response =>
      obtain ⟨⟨hfetching, -⟩, -⟩ := Option.ite_none_right_eq_some.mp hstep
      exact absurd (hdisplay.symm.trans hfetching) (by decide)
  | display =>
      simp only [catStep, Console.step, hdisplay] at hstep
      cases hstep
  | spurious | interrupt | handlerNotify => cases hquiet

/-- Who has missed the notification sleeps on, and no screen is drawn again. -/
theorem CatState.Missed.stays {s t : CatState} (h : s.Missed) (hconnected : s.link.connected = true)
    (hidle : s.link.poller = .atLoop) {later : List CatAction}
    (hrun : (catMachine opts).runFrom s later = some t)
    (hquiet : ∀ a ∈ later, a.Quiet opts s.link.curSel) :
    t.Missed ∧ t.view.screens = s.view.screens := by
  have hstart : Unwoken s s := ⟨rfl, hconnected, rfl, .inl hidle, h.2.2.2⟩
  have hend : Unwoken s t :=
    Machine.invariant_of_guardedFrom (M := catMachine opts)
      (fun _ _ _ hmid hq hstep => Unwoken.step hmid h.1 hq hstep) hstart
      (Machine.guardedFrom_of_mem s hquiet) hrun
  refine ⟨⟨hend.view ▸ h.1, .inl hend.connected, ?_, hend.handlers⟩, hend.view ▸ rfl⟩
  rcases hend.idle with hpoller | hpoller | hpoller <;> rw [hpoller] <;> decide

instance (s : CatState) : Decidable s.Missed :=
  inferInstanceAs (Decidable (_ ∧ _))

/-- A sniffer is attached just before the display goes to sleep. -/
def lateSleep : List CatAction :=
  [.display, .display, .display, .display] ++ rebuild [entryOf 0 5 .socketPub] ++ [.display]

end DzIpc.TopicCat
