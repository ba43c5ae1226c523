import DzIpc.Library.Line
import DzIpc.PubSub.FastPath

/-!
# The order of messages when the path changes

A message goes to a subscriber of the same process either through the ring, from which the
subscriber's receive thread takes it and pushes it into the queue, or from the publishing thread
directly into the queue.

The machine has one publishing thread, one subscriber that stays connected, its receive thread
and its owner.  The ring and the queue are never full.  Any number of receivers in other
processes come and go, the subscriber's entry in the registry too, and with them the two counts
agree and diverge.

* `line` reads the state as a line: published messages of the subscriber's id join it, the
  queue is entered from its head by the receive thread and from its end on the fast path.
* `inOrder_step`: a step keeps the order exactly if it is no push on the fast path past a message
  that is in the ring or in the receive thread's hands.
* `taken_in_order` is the result for runs, and `third_overtakes` the first switch to the fast
  path while the ring has two messages.
-/

namespace DzIpc.PubSub.PathOrder

open FastPath

/-- A topic and the message id of its subscriber. -/
structure Topic where
  name : List Char
  domainId : ℕ
  msgId : ℕ

/-- The publisher `shm_pub_ipc` of the topic; the subscriber's process is its own. -/
def Topic.setting (P : Topic) : Setting where
  kind := .shmPubSub
  topicName := P.name
  domainId := P.domainId
  process := 0
  topicOf := fun _ => P.name
  processOf := fun _ => 0

/-- A message: the number of its publish, and its message id. -/
structure Msg where
  call : ℕ
  msgId : ℕ
  deriving DecidableEq, Repr

/-- Where the publishing thread is. -/
inductive Pc where
  | idle
  /-- `subscriber_snapshot` has returned, with the subscriber's queue or without. -/
  | snapped (m : Msg) (found : Bool)
  | compare (m : Msg) (found : Bool) (total : ℕ)
  | fanout (m : Msg) (found : Bool)
  /-- `publish_for_sniffer`. -/
  | send (m : Msg)
  deriving DecidableEq, Repr

/-- The message of the publish. -/
def Pc.msg : Pc → Option Msg
  | .idle => none
  | .snapped m _ | .compare m _ _ | .fanout m _ | .send m => some m

structure State where
  nodelet : Bool
  fp : Fp
  pc : Pc
  /-- The subscriber's queue is in the registry. -/
  registered : Bool
  /-- The other receivers connected to the ring. -/
  others : ℕ
  /-- The messages in the ring that the receive thread has not popped. -/
  ring : List Msg
  /-- The message between its `recv` and its push. -/
  hand : Option Msg
  /-- `msg_queue_`. -/
  queue : List ℕ
  taken : List ℕ
  /-- The publishes begun, and those of the subscriber's message id. -/
  calls : ℕ
  published : List ℕ
  deriving DecidableEq, Repr

inductive Action where
  /-- `publish_best_effort`, to the end of the snapshot. -/
  | publish (msgId : ℕ)
  /-- The publishing thread's next step. -/
  | goOn
  /-- The receive thread's `recv`. -/
  | recv
  /-- The receive thread goes on, with `AcceptWire`. -/
  | accept
  /-- `get_clone` or `try_get_clone`. -/
  | take
  | register (on : Bool)
  | others (n : ℕ)
  | enableNodelet (on : Bool)
  | pubResetMessage
  deriving DecidableEq, Repr

/-- `publish_best_effort`, to the end of the snapshot. -/
def publish (P : Topic) (s : State) (msgId : ℕ) : Option State :=
  match s.pc with
  | .idle =>
      let m : Msg := { call := s.calls, msgId }
      let found := s.registered && P.setting.pubKey msgId = P.setting.subKey 0 P.msgId
      some { s with
        calls := s.calls + 1
        published := if msgId = P.msgId then s.published ++ [s.calls] else s.published
        pc := if s.nodelet then .snapped m found else .send m }
  | _ => none

/-- One step of the publishing thread. -/
def goOn (P : Topic) (s : State) : Option State :=
  match s.pc with
  | .idle => none
  | .snapped m found => some { s with pc := .compare m found (s.others + 1) }
  | .compare m found total =>
      let (fast, fp) := P.setting.confirm s.fp (P.setting.pubKey m.msgId) found.toNat total
      some { s with fp := fp, pc := if fast then .fanout m found else .send m }
  | .fanout m found =>
      some { s with queue := if found then s.queue ++ [m.call] else s.queue, pc := .idle }
  | .send m => some { s with ring := s.ring ++ [m], pc := .idle }

/-- One step. -/
def step (P : Topic) (s : State) : Action → Option State
  | .publish msgId => publish P s msgId
  | .goOn => goOn P s
  | .recv =>
      match s.hand, s.ring with
      | none, m :: ring => some { s with hand := some m, ring := ring }
      | _, _ => none
  | .accept =>
      match s.hand with
      | some m =>
          some { s with
            hand := none, queue := if m.msgId = P.msgId then s.queue ++ [m.call] else s.queue }
      | none => none
  | .take =>
      match s.queue with
      | n :: queue => some { s with queue := queue, taken := s.taken ++ [n] }
      | [] => none
  | .register on => some { s with registered := on }
  | .others n => some { s with others := n }
  | .enableNodelet on => some { s with nodelet := on }
  | .pubResetMessage => some { s with fp := { s.fp with consecutive := 0 } }

/-- The subscriber is connected, and nothing is published. -/
def machine (P : Topic) : Machine State Action where
  init :=
    { nodelet := false
      fp := { key := { topicName := [], domainId := 0, msgId := 0 }, snapshotSize := 0, total := 0
              consecutive := 0 }
      pc := .idle
      registered := false
      others := 0
      ring := []
      hand := none
      queue := []
      taken := []
      calls := 0
      published := [] }
  step := step P

/-! ## The property -/

/-- The messages of the subscriber's id among some. -/
def Topic.own (P : Topic) (msgs : List Msg) : List ℕ :=
  (msgs.filter fun m => m.msgId = P.msgId).map Msg.call

/-- The messages in the receive thread's hands and in the ring, the first one first. -/
def State.inRing (s : State) : List Msg :=
  s.hand.toList ++ s.ring

/-- The messages published and not yet in the queue. -/
def State.underWay (s : State) : List Msg :=
  s.inRing ++ s.pc.msg.toList

/-- The condition: when the publishing thread pushes into the queue, nothing for the subscriber is
in the ring or in the hands of the receive thread. -/
def NothingInRing (P : Topic) (s : State) : Action → Prop
  | .goOn =>
      match s.pc with
      | .fanout _ true => P.own s.inRing = []
      | _ => True
  | _ => True

instance (P : Topic) (s : State) (a : Action) : Decidable (NothingInRing P s a) := by
  unfold NothingInRing
  repeat' split
  all_goals infer_instance

/-! ## The line of messages -/

/-- The state as a line. -/
def line (P : Topic) (s : State) : Line where
  served := s.taken ++ s.queue
  waiting := P.own s.underWay
  joined := s.published

variable {P : Topic} {s t : State}

theorem own_append (first second : List Msg) :
    P.own (first ++ second) = P.own first ++ P.own second := by
  simp [Topic.own]

theorem own_cons {m : Msg} {msgs : List Msg} :
    P.own (m :: msgs) = if m.msgId = P.msgId then m.call :: P.own msgs else P.own msgs := by
  unfold Topic.own
  by_cases h : m.msgId = P.msgId
  · rw [List.filter_cons_of_pos (by simpa using h), if_pos h, List.map_cons]
  · rw [List.filter_cons_of_neg (by simpa using h), if_neg h]

/-- Where the queue is in the snapshot, the message is of the subscriber's id, and the fast path
is taken there only. -/
def Pc.Proper (P : Topic) : Pc → Prop
  | .snapped m found | .compare m found _ => found = true → m.msgId = P.msgId
  | .fanout m found => found = true ∧ m.msgId = P.msgId
  | .idle | .send _ => True

theorem not_confirm_zero (P : Setting) (fp : Fp) (key : ChannelKey) (total : ℕ) :
    (P.confirm fp key 0 total).1 = false := by
  have hnone : P.allLocal 0 total = false := by
    unfold Setting.allLocal
    split <;> simp
  unfold Setting.confirm
  rw [hnone]
  rfl

/-- The fast path is taken with the queue in the snapshot. -/
theorem found_of_confirm {fp : Fp} {key : ChannelKey} {found : Bool} {total : ℕ}
    (h : (P.setting.confirm fp key found.toNat total).1 = true) : found = true := by
  by_contra hnot
  rw [Bool.eq_false_of_not_eq_true hnot, Bool.toNat_false, not_confirm_zero] at h
  cases h

theorem proper_step {a : Action} (h : s.pc.Proper P) (hstep : step P s a = some t) :
    t.pc.Proper P := by
  cases a with
  | publish msgId =>
      simp only [step, publish] at hstep
      split at hstep <;> cases hstep
      dsimp only
      split
      · intro hfound
        obtain ⟨-, hkey⟩ := Bool.and_eq_true_iff.mp hfound
        exact congrArg ChannelKey.msgId (of_decide_eq_true hkey)
      · trivial
  | goOn =>
      simp only [step, goOn] at hstep
      split at hstep
      · cases hstep
      · rename_i hpc
        rw [hpc] at h
        cases hstep
        exact h
      · rename_i m found total hpc
        rw [hpc] at h
        cases hstep
        dsimp only
        split
        · rename_i hfast
          have hfound := found_of_confirm hfast
          exact ⟨hfound, h hfound⟩
        · trivial
      · cases hstep
        trivial
      · cases hstep
        trivial
  | recv | accept | take =>
      simp only [step] at hstep
      split at hstep <;> cases hstep
      exact h
  | _ =>
      cases hstep
      exact h

/-- What a step does with the line: nothing, an operation at one of its ends, or a jump. -/
inductive LineStep (P : Topic) (s t : State) (a : Action) : Prop where
  | stays (hline : line P t = line P s) (hnothing : NothingInRing P s a)
  | joins (hline : line P t = (line P s).join s.calls) (hnothing : NothingInRing P s a)
  | serves (n : ℕ) (rest : List ℕ) (hhead : (line P s).waiting = n :: rest)
      (hline : line P t = (line P s).leave n rest) (hnothing : NothingInRing P s a)
  | jumps (n : ℕ) (rest : List ℕ) (hlast : (line P s).waiting = rest ++ [n])
      (hline : line P t = (line P s).leave n rest) (hnothing : NothingInRing P s a ↔ rest = [])

theorem lineStep_publish {msgId : ℕ} (hstep : publish P s msgId = some t) :
    LineStep P s t (.publish msgId) := by
  unfold publish at hstep
  split at hstep <;> cases hstep
  rename_i hidle
  have hbefore : P.own s.underWay = P.own s.inRing := by
    simp [State.underWay, hidle, Pc.msg]
  let m : Msg := { call := s.calls, msgId }
  have hafter : ∀ pc : Pc, pc.msg = some m → P.own (s.inRing ++ pc.msg.toList)
      = P.own s.inRing ++ if msgId = P.msgId then [s.calls] else [] := by
    intro pc hpc
    rw [hpc, own_append, Option.toList_some, own_cons]
    rfl
  have hmsg : (if s.nodelet = true then
      Pc.snapped m (s.registered && P.setting.pubKey msgId = P.setting.subKey 0 P.msgId)
    else .send m).msg = some m := by
    split <;> rfl
  by_cases hown : msgId = P.msgId
  · refine .joins ?_ trivial
    unfold line Line.join
    rw [hbefore]
    simp only [State.underWay, State.inRing] at hafter ⊢
    rw [hafter _ hmsg, if_pos hown, if_pos hown]
  · refine .stays ?_ trivial
    unfold line
    rw [hbefore]
    simp only [State.underWay, State.inRing] at hafter ⊢
    rw [hafter _ hmsg, if_neg hown, if_neg hown, List.append_nil]

theorem lineStep_goOn (h : s.pc.Proper P) (hstep : goOn P s = some t) :
    LineStep P s t .goOn := by
  have hnothing : ∀ pc, s.pc = pc → (∀ m, pc ≠ .fanout m true) → NothingInRing P s .goOn := by
    intro pc hpc hne
    unfold NothingInRing
    dsimp only
    split
    · rename_i m hfanout
      exact absurd (hpc.symm.trans hfanout) (hne m)
    · trivial
  unfold goOn at hstep
  split at hstep
  · cases hstep
  · rename_i m found hpc
    cases hstep
    refine .stays ?_ (hnothing _ hpc fun _ heq => Pc.noConfusion heq)
    simp [line, State.underWay, State.inRing, hpc, Pc.msg]
  · rename_i m found total hpc
    cases hstep
    refine .stays ?_ (hnothing _ hpc fun _ heq => Pc.noConfusion heq)
    have hmsg : ∀ fast : Bool, (if fast = true then Pc.fanout m found else .send m).msg = some m := by
      intro fast
      split <;> rfl
    unfold line State.underWay
    dsimp only
    rw [hmsg, hpc]
    rfl
  · rename_i m found hpc
    rw [hpc] at h
    obtain ⟨rfl, hown⟩ := h
    cases hstep
    have hmsg : P.own [m] = [m.call] := by
      rw [own_cons, if_pos hown]
      rfl
    refine .jumps m.call (P.own s.inRing) ?_ ?_ ?_
    · unfold line State.underWay
      rw [hpc, own_append]
      exact congrArg _ hmsg
    · simp [line, Line.leave, State.underWay, State.inRing, Pc.msg]
    · unfold NothingInRing
      rw [hpc]
  · rename_i m hpc
    cases hstep
    refine .stays ?_ (hnothing _ hpc fun _ heq => Pc.noConfusion heq)
    simp [line, State.underWay, State.inRing, hpc, Pc.msg]

theorem lineStep {a : Action} (h : s.pc.Proper P) (hstep : step P s a = some t) :
    LineStep P s t a := by
  cases a with
  | publish msgId => exact lineStep_publish hstep
  | goOn => exact lineStep_goOn h hstep
  | recv =>
      simp only [step] at hstep
      split at hstep <;> cases hstep
      rename_i m ring hhand hring
      refine .stays ?_ trivial
      simp [line, State.underWay, State.inRing, hhand, hring]
  | accept =>
      simp only [step] at hstep
      split at hstep <;> cases hstep
      rename_i m hhand
      have hbefore : P.own s.underWay = if m.msgId = P.msgId then
          m.call :: P.own (s.ring ++ s.pc.msg.toList) else P.own (s.ring ++ s.pc.msg.toList) := by
        rw [← own_cons]
        simp [State.underWay, State.inRing, hhand]
      by_cases hown : m.msgId = P.msgId
      · rw [if_pos hown] at hbefore
        refine .serves m.call (P.own (s.ring ++ s.pc.msg.toList)) hbefore ?_ trivial
        simp [line, Line.leave, State.underWay, State.inRing, hown]
      · rw [if_neg hown] at hbefore
        refine .stays ?_ trivial
        unfold line
        rw [hbefore]
        simp [State.underWay, State.inRing, hown]
  | take =>
      simp only [step] at hstep
      split at hstep <;> cases hstep
      rename_i n queue hqueue
      refine .stays ?_ trivial
      simp [line, State.underWay, State.inRing, hqueue]
  | register on | others n | enableNodelet on | pubResetMessage =>
      cases hstep
      exact .stays rfl trivial

/-! ## Runs -/

/-- What every run keeps. -/
structure Inv (P : Topic) (s : State) : Prop where
  proper : s.pc.Proper P
  sound : (line P s).Sound
  calls : ∀ n ∈ s.published, n < s.calls

theorem inv_init (P : Topic) : Inv P (machine P).init where
  proper := trivial
  sound := ⟨List.Pairwise.nil, List.Pairwise.nil, (fun _ h => nomatch h)⟩
  calls := fun _ h => nomatch h

/-- The numbers of the publishes grow. -/
theorem calls_step {a : Action} (h : ∀ n ∈ s.published, n < s.calls) (hstep : step P s a = some t) :
    ∀ n ∈ t.published, n < t.calls := by
  cases a with
  | publish msgId =>
      simp only [step, publish] at hstep
      split at hstep <;> cases hstep
      intro n hn
      dsimp only at hn
      split at hn
      · rcases List.mem_append.mp hn with hn | hn
        · exact Nat.lt_succ_of_lt (h n hn)
        · exact List.mem_singleton.mp hn ▸ Nat.lt_succ_self _
      · exact Nat.lt_succ_of_lt (h n hn)
  | goOn =>
      simp only [step, goOn] at hstep
      split at hstep <;> cases hstep <;> exact h
  | recv | accept | take =>
      simp only [step] at hstep
      split at hstep <;> cases hstep
      exact h
  | _ =>
      cases hstep
      exact h

theorem inv_step {a : Action} (h : Inv P s) (hstep : step P s a = some t) : Inv P t := by
  refine ⟨proper_step h.proper hstep, ?_, calls_step h.calls hstep⟩
  rcases lineStep h.proper hstep with ⟨hline, _⟩ | ⟨hline, _⟩ | ⟨n, rest, hhead, hline, _⟩ |
    ⟨n, rest, hlast, hline, _⟩
  · rw [hline]
    exact h.sound
  · rw [hline]
    exact h.sound.join h.calls
  · rw [hline]
    exact h.sound.leave (hhead ▸ List.sublist_cons_self n rest)
  · rw [hline]
    exact h.sound.leave (hlast ▸ List.sublist_append_left rest [n])

/-- **One step.**  It keeps the order exactly if it is no push past a message in the ring. -/
theorem inOrder_step {a : Action} (h : Inv P s) (hstep : step P s a = some t) :
    (line P t).InOrder ↔ (line P s).InOrder ∧ NothingInRing P s a := by
  rcases lineStep h.proper hstep with ⟨hline, hnothing⟩ | ⟨hline, hnothing⟩ |
    ⟨n, rest, hhead, hline, hnothing⟩ | ⟨n, rest, hlast, hline, hnothing⟩
  · rw [hline]
    exact (and_iff_left hnothing).symm
  · rw [hline, Line.inOrder_join]
    exact (and_iff_left hnothing).symm
  · rw [hline, Line.inOrder_serve hhead]
    exact (and_iff_left hnothing).symm
  · rw [hline, Line.inOrder_jump h.sound hlast, hnothing]

/-- The line is out of order. -/
def Jumped (P : Topic) (s : State) : Prop :=
  Inv P s ∧ ¬ (line P s).InOrder

theorem inOrder_iff_guarded {actions : List Action} (hrun : (machine P).run actions = some s) :
    (line P s).InOrder ↔ (machine P).Guarded (NothingInRing P) actions := by
  have hinv : Inv P s :=
    Machine.invariant (inv_init P) (fun _ _ _ h hstep => inv_step h hstep) hrun
  constructor
  · intro horder
    have hclean : ¬ Jumped P s := fun h => h.2 horder
    refine Machine.guardedFrom_of_unmarked ?_ ?_ ?_ (inv_init P) hrun hclean
    · exact fun _ _ _ h hstep => inv_step h hstep
    · intro s a t h hstep hjump
      exact ⟨inv_step h hstep, fun horder => hjump ((inOrder_step h hstep).mp horder).2⟩
    · intro s a t h hstep
      exact ⟨inv_step h.1 hstep, fun horder => h.2 ((inOrder_step h.1 hstep).mp horder).1⟩
  · intro hguarded
    have horder : Inv P s ∧ (line P s).InOrder := by
      apply Machine.invariant_of_guarded _ _ hguarded hrun
      · exact ⟨inv_init P, rfl⟩
      · intro s a t h hnothing hstep
        exact ⟨inv_step h.1 hstep, (inOrder_step h.1 hstep).mpr ⟨h.2, hnothing⟩⟩
    exact horder.2

/-- **The order of messages.**  If no push on the fast path goes past a message in the ring, the
subscriber's owner has taken the first of the messages published, in their order.  And where
nothing is left in the queue or under way, it has taken all of them in their order if and only if
there was no such push. -/
theorem taken_in_order {actions : List Action} (hrun : (machine P).run actions = some s) :
    s.published.Nodup ∧
      ((machine P).Guarded (NothingInRing P) actions → s.taken <+: s.published) ∧
      (s.queue = [] → P.own s.underWay = [] →
        (s.taken = s.published ↔ (machine P).Guarded (NothingInRing P) actions)) := by
  have hinv : Inv P s :=
    Machine.invariant (inv_init P) (fun _ _ _ h hstep => inv_step h hstep) hrun
  rw [← inOrder_iff_guarded hrun]
  refine ⟨?_, ?_, ?_⟩
  · exact hinv.sound.joined.imp Nat.ne_of_lt
  · intro horder
    refine ⟨s.queue ++ P.own s.underWay, ?_⟩
    rw [← List.append_assoc]
    exact horder
  · intro hqueue hunderWay
    have hline : (line P s).served ++ (line P s).waiting = s.taken := by
      simp [line, hqueue, hunderWay]
    unfold Line.InOrder
    rw [hline]
    rfl

/-- A subscriber of message id 7. -/
def topic : Topic :=
  { name := ['t'], domainId := 0, msgId := 7 }

/-- A publish that sends, one that pushes into the queue, and what the receive thread does with a
message. -/
def publishOnce : List Action := .publish 7 :: List.replicate 3 .goOn
def receiveOnce : List Action := [.recv, .accept]

/-- Two messages are sent and received; the third one is pushed into the queue.  Another receiver
comes, the fourth is sent and received, and all are taken. -/
def thereAndBack : List Action :=
  [.enableNodelet true, .register true] ++ publishOnce ++ receiveOnce ++ publishOnce ++
    receiveOnce ++ publishOnce ++ [.others 1] ++ publishOnce ++ receiveOnce ++
    List.replicate 4 .take

theorem taken_in_order_thereAndBack :
    ∃ s, (machine topic).run thereAndBack = some s ∧ s.taken = [0, 1, 2, 3] ∧
      s.published.Nodup ∧
      ((machine topic).Guarded (NothingInRing topic) thereAndBack → s.taken <+: s.published) ∧
      (s.queue = [] → topic.own s.underWay = [] →
        (s.taken = s.published ↔
          (machine topic).Guarded (NothingInRing topic) thereAndBack)) := by
  obtain ⟨s, hrun, htaken⟩ : ∃ s, (machine topic).run thereAndBack = some s ∧
      s.taken = [0, 1, 2, 3] :=
    Machine.exists_of_any (M := machine topic) (by decide +kernel)
  exact ⟨s, hrun, htaken, taken_in_order hrun⟩

/-- Two messages are sent, and the receive thread has not come to them when the third one is
pushed into the queue. -/
def thirdFirst : List Action :=
  [.enableNodelet true, .register true] ++ publishOnce ++ publishOnce ++ publishOnce ++
    receiveOnce ++ receiveOnce ++ List.replicate 3 .take

/-- **The third message comes first.**  With the counts equal from the beginning, the third publish
takes the fast path. -/
theorem third_overtakes :
    ∃ s, (machine topic).run thirdFirst = some s ∧ s.published = [0, 1, 2] ∧
      s.taken = [2, 0, 1] ∧ ¬ s.taken <+: s.published :=
  Machine.exists_of_any (M := machine topic) (by decide +kernel)

end DzIpc.PubSub.PathOrder
