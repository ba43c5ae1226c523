import DzIpc.Library.Machine
import DzIpc.Udp.Receiver
import DzIpc.Udp.Sender

/-!
# How a reliable send gives up

A call of `chunk_send_ex` that waits for its acknowledgment runs two nested loops.  The inner
one reads the clock against `ack_timeout_ms` in two places and returns `FailedTimeout` from
either; behind the outer one stands the final heartbeat, which tells the receivers that
nothing will be sent again.  Here the call is followed from one reading of the clock to the
next, with every `break`, `continue` and `return` of the two loops.

* `inv_of_run`: a reliable call never gets behind its outer loop, and no heartbeat it sends
  is final.
* `givesNotice_iff`: a reliable call that gives up gives notice exactly in the runs in which
  it does not give up, which are those whose readings at both places are in time.
* `gives_up_silently` is a run of a call that gives up.
-/

namespace DzIpc.Udp

open Wire

/-! ## One call -/

/-- A call of `chunk_send_ex`: its node, what the sequence counter says, its arguments, and
the three times that it computes before its first wait. -/
structure ChunkSend where
  senderId : UInt32
  sequence : UInt32
  knownPeers : List UInt32
  publishData : List UInt8
  options : SendOptions
  firstWaitMs : ℕ
  nackWaitMs : ℕ
  ackTimeoutMs : ℕ

/-- Where the call is. -/
inductive SendPlace where
  /-- The call is made. -/
  | entry
  /-- The head of the inner loop: `elapsed_ms(ack_begin)` is read. -/
  | deadline (snd : Sending)
  /-- `elapsed_ms(round_begin)` is read. -/
  | roundTime (snd : Sending)
  /-- `elapsed_ms(ack_begin)` is read again, as `total_used`. -/
  | deadlineAgain (snd : Sending)
  /-- `receive(wait_ms)`. -/
  | receiving (snd : Sending)
  /-- Behind the inner loop. -/
  | roundOver (snd : Sending)
  /-- Behind the outer loop. -/
  | leftLoop (snd : Sending)
  | returned (report : SendReport)
  /-- A `deserialize` has thrown. -/
  | thrown
  deriving DecidableEq, Repr

/-- The variables of the two loops, while they run. -/
def SendPlace.sending : SendPlace → Option Sending
  | .deadline snd | .roundTime snd | .deadlineAgain snd | .receiving snd | .roundOver snd
  | .leftLoop snd => some snd
  | .entry | .returned _ | .thrown => none

/-- The place of the call, the receivers known to its node, and all datagrams that it has
handed to the data channel. -/
structure SendState where
  place : SendPlace
  knownPeers : List UInt32
  log : List (List UInt8)
  deriving DecidableEq, Repr

/-- What comes from outside: which pages fail to leave the host, a reading of the clock, a
received datagram (empty where the wait ends without one), and the datagrams that are found
in the queue when a round is over. -/
inductive SendEvent where
  | enter (localFail : Option ℕ)
  | clock (ms : ℕ)
  | receive (buf : List UInt8)
  | endRound (drained : List (List UInt8)) (localFail : Option (List ℕ))
  | leave
  deriving DecidableEq, Repr

namespace ChunkSend

variable (call : ChunkSend)

/-- `round_wait_ms`. -/
def roundWaitMs (snd : Sending) : ℕ :=
  if snd.round = 0 then call.firstWaitMs else call.nackWaitMs

/-- The two exits of the inner loop, `return` included. -/
def giveUp (s : SendState) (snd : Sending) : SendState :=
  { s with
    place := .returned
      { status := .failedTimeout, crc32c := snd.crc32c, ackCrc32c := 0,
        sequence := snd.info.sequence } }

/-- One step of the call. -/
def step (s : SendState) : SendEvent → Option SendState
  | .enter localFail =>
      match s.place with
      | .entry =>
          let out := beginSend call.senderId call.sequence s.knownPeers call.publishData
            call.options localFail
          match out.sending, out.report with
          | some snd, _ =>
              some { place := .deadline snd, knownPeers := out.knownPeers, log := s.log ++ out.data }
          | none, some report =>
              some { place := .returned report, knownPeers := out.knownPeers
                     log := s.log ++ out.data }
          | none, none => none
      | _ => none
  | .clock ms =>
      match s.place with
      | .deadline snd =>
          if snd.options.delivery = .reliable ∧ ms ≥ call.ackTimeoutMs then some (giveUp s snd)
          else some { s with place := .roundTime snd }
      | .roundTime snd =>
          if ms ≥ call.roundWaitMs snd then some { s with place := .roundOver snd }
          else if snd.options.delivery = .reliable then some { s with place := .deadlineAgain snd }
          else some { s with place := .receiving snd }
      | .deadlineAgain snd =>
          if ms ≥ call.ackTimeoutMs then some (giveUp s snd)
          else some { s with place := .receiving snd }
      | _ => none
  | .receive buf =>
      match s.place with
      | .receiving snd =>
          if buf = [] then some { s with place := .roundOver snd }
          else
            match collect s.knownPeers snd buf with
            | none => some { s with place := .thrown }
            | some (knownPeers, snd') =>
                some
                  { s with
                    knownPeers := knownPeers
                    place := if snd'.matchedAck.isSome then .roundOver snd' else .deadline snd' }
      | _ => none
  | .endRound drained localFail =>
      match s.place with
      | .roundOver snd =>
          -- the silent round of a best-effort send leaves the outer loop
          if snd.matchedAck = none ∧ (¬ snd.gotNack ∨ snd.missingUnion = [])
              ∧ snd.options.delivery = .bestEffort then
            some { s with place := .leftLoop snd }
          else
            let out := roundEnd call.senderId s.knownPeers snd drained localFail
            match out.sending, out.report with
            | some snd', _ =>
                some
                  { place :=
                      if snd'.options.delivery = .bestEffort ∧ snd'.round ≥ rtpsMaxNackRound then
                        .leftLoop snd'
                      else .deadline snd'
                    knownPeers := out.knownPeers
                    log := s.log ++ out.data }
            | none, some report =>
                some { place := .returned report, knownPeers := out.knownPeers
                       log := s.log ++ out.data }
            | none, none => none
      | _ => none
  | .leave =>
      match s.place with
      | .leftLoop snd =>
          let reliable : Bool := snd.options.delivery = .reliable
          some
            { s with
              log := s.log ++
                if snd.options.sendHeartbeat && reliable then
                  [sendHeartbeat call.senderId snd.info false true (.ofNat (snd.round + 2))]
                else []
              place := .returned
                { status := if reliable then .failedTimeout else .sentUnconfirmed
                  crc32c := snd.crc32c, ackCrc32c := 0, sequence := snd.info.sequence } }
      | _ => none

/-- The call, from its entry. -/
def machine : Machine SendState SendEvent where
  init := { place := .entry, knownPeers := call.knownPeers, log := [] }
  step := call.step

/-! ## What giving notice is -/

/-- The datagram is a final heartbeat for the message of the call. -/
def IsFinalNotice (datagram : List UInt8) : Prop :=
  ∃ m : RtpsHeartbeatMsg, datagram = m.serialize ∧ m.flags &&& flagFinal ≠ 0 ∧
    m.sequence = call.sequence ∧
    Announces call.publishData
      { pageCnt := m.pageCnt, totalSize := m.totalSize, msgId := m.dataMsgId,
        sequence := m.sequence }

/-- Among the datagrams is a final heartbeat, and no page is sent after it. -/
def Announced (log : List (List UInt8)) : Prop :=
  ∃ before notice after, log = before ++ notice :: after ∧ call.IsFinalNotice notice ∧
    notice ∉ wirePages call.publishData ∧
    ∀ datagram ∈ after, datagram ∉ wirePages call.publishData

/-- The call has returned `FailedTimeout`. -/
def GaveUp (s : SendState) : Prop :=
  ∃ report, s.place = .returned report ∧ report.status = .failedTimeout

/-- A call that has returned `FailedTimeout` has told the receivers before. -/
def GivesNotice (s : SendState) : Prop :=
  GaveUp s → call.Announced s.log

/-- A reading of the clock against the deadline is in time. -/
def InTime (s : SendState) (e : SendEvent) : Prop :=
  match s.place, e with
  | .deadline _, .clock ms | .deadlineAgain _, .clock ms => ms < call.ackTimeoutMs
  | _, _ => True

instance (s : SendState) (e : SendEvent) : Decidable (call.InTime s e) := by
  unfold InTime
  split <;> infer_instance

end ChunkSend

/-! ## No heartbeat of a reliable send is final -/

/-- The datagram is a heartbeat without the final flag. -/
def IsPlainHeartbeat (datagram : List UInt8) : Prop :=
  ∃ m : RtpsHeartbeatMsg, datagram = m.serialize ∧ m.flags &&& flagFinal = 0

theorem isPlainHeartbeat_sendHeartbeat (senderId : UInt32) (info : ChunkMeta) (reliable : Bool)
    (round : UInt16) : IsPlainHeartbeat (sendHeartbeat senderId info reliable false round) := by
  have hflags : ∀ b : Bool, ((if b then flagReliable else 0) ||| (if false then flagFinal else 0)
      ||| flagBitmapNack ||| flagRateFeedback) &&& flagFinal = 0 := by decide
  exact ⟨_, rfl, hflags reliable⟩

/-- A plain heartbeat is not a final one: what was written is read back. -/
theorem IsPlainHeartbeat.not_isFinalNotice {call : ChunkSend} {datagram : List UInt8}
    (h : IsPlainHeartbeat datagram) : ¬ call.IsFinalNotice datagram := by
  intro hnotice
  obtain ⟨m', hm', hfinal, -⟩ := hnotice
  obtain ⟨m, hm, hplain⟩ := h
  have hread : (Except.ok m : Except Fault RtpsHeartbeatMsg) = .ok m' := by
    calc (Except.ok m : Except Fault RtpsHeartbeatMsg)
        = m.deserialize m.serialize := (m.deserialize_serialize m).symm
      _ = m.deserialize m'.serialize := by rw [← hm, hm']
      _ = .ok m' := m'.deserialize_serialize m
  cases hread
  exact hfinal hplain

/-- The datagram is a page of the buffer or a heartbeat that is not final. -/
def PageOrPlain (publishData : List UInt8) (datagram : List UInt8) : Prop :=
  datagram ∈ wirePages publishData ∨ IsPlainHeartbeat datagram

theorem pageOrPlain_heartbeat {publishData : List UInt8} (senderId : UInt32) (info : ChunkMeta)
    (reliable : Bool) (round : UInt16) (b : Bool) :
    ∀ datagram ∈ (if b then [sendHeartbeat senderId info reliable false round] else []),
      PageOrPlain publishData datagram := by
  intro datagram hmem
  split at hmem
  · rw [List.mem_singleton.mp hmem]
    exact Or.inr (isPlainHeartbeat_sendHeartbeat ..)
  · cases hmem

/-- What every event of a reliable send of `publishData` keeps: it sends pages and plain
heartbeats, it does not report a time-out, and it goes on with the same buffer and options. -/
structure Sent.Plain (publishData : List UInt8) (options : SendOptions) (out : Sent) : Prop where
  data : ∀ datagram ∈ out.data, PageOrPlain publishData datagram
  report : ∀ report ∈ out.report, report.status ≠ .failedTimeout
  sending : ∀ snd ∈ out.sending, snd.publishData = publishData ∧ snd.options = options

theorem Sent.Plain.done {publishData : List UInt8} {options : SendOptions}
    {knownPeers : List UInt32} {data : List (List UInt8)} {report : SendReport}
    (hdata : ∀ datagram ∈ data, PageOrPlain publishData datagram)
    (hstatus : report.status ≠ .failedTimeout) :
    (Sent.done knownPeers data report).Plain publishData options where
  data := hdata
  report := fun _ h => by cases h; exact hstatus
  sending := fun _ h => nomatch h

theorem plain_beginSend (senderId sequence : UInt32) (knownPeers : List UInt32)
    (publishData : List UInt8) {options : SendOptions} (localFail : Option ℕ)
    (hrel : options.delivery = .reliable) :
    (beginSend senderId sequence knownPeers publishData options localFail).Plain publishData
      options := by
  have hnil : ∀ datagram ∈ ([] : List (List UInt8)), PageOrPlain publishData datagram :=
    fun _ h => nomatch h
  unfold beginSend
  dsimp only
  split
  · exact .done hnil nofun
  split
  · exact .done hnil nofun
  split
  · exact .done hnil nofun
  split
  · exact .done hnil nofun
  split
  · exact .done hnil nofun
  split
  · refine .done (fun datagram hmem => ?_) nofun
    rcases List.mem_append.mp hmem with hlead | hpage
    · exact pageOrPlain_heartbeat _ _ _ _ _ datagram hlead
    · exact Or.inl (List.mem_of_mem_take hpage)
  · rw [hrel]
    dsimp only
    refine ⟨fun datagram hmem => ?_, fun _ h => ?_, fun snd hsnd => ?_⟩
    · rcases List.mem_append.mp hmem with hmem | hend
      · rcases List.mem_append.mp hmem with hlead | hpage
        · exact pageOrPlain_heartbeat _ _ _ _ _ datagram hlead
        · exact Or.inl hpage
      · exact pageOrPlain_heartbeat _ _ true _ _ datagram hend
    · cases h
    · cases hsnd
      exact ⟨rfl, rfl⟩

theorem plain_roundEnd (senderId : UInt32) (knownPeers : List UInt32) (snd : Sending)
    (drained : List (List UInt8)) (localFail : Option (List ℕ)) :
    (roundEnd senderId knownPeers snd drained localFail).Plain snd.publishData snd.options := by
  have hheartbeat : ∀ datagram ∈ (if snd.options.sendHeartbeat then
      [sendHeartbeat senderId snd.info true false (.ofNat (snd.round + 2))] else []),
      PageOrPlain snd.publishData datagram := pageOrPlain_heartbeat _ _ _ _ _
  unfold roundEnd
  dsimp only
  split
  · refine .done (fun _ h => nomatch h) ?_
    dsimp only
    split <;> exact nofun
  split
  · refine ⟨fun datagram hmem => ?_, fun _ h => ?_, fun _ h => ?_⟩
    · dsimp only at hmem
      split at hmem
      · exact hheartbeat datagram hmem
      · cases hmem
    · cases h
    · cases h
      exact ⟨rfl, rfl⟩
  split
  · exact .done (fun datagram hmem => Or.inl (mem_pages_of_mem_pagesAt hmem)) nofun
  · refine ⟨fun datagram hmem => ?_, fun _ h => ?_, fun _ h => ?_⟩
    · rcases List.mem_append.mp hmem with hpage | hhb
      · exact Or.inl (mem_pages_of_mem_pagesAt hpage)
      · exact hheartbeat datagram hhb
    · cases h
    · cases h
      exact ⟨rfl, rfl⟩

/-! ## Every run of a reliable call -/

/-- What the steps of a reliable call keep: its loops run with its own buffer and options, it
is not behind the outer loop, and it has sent pages and plain heartbeats only. -/
structure PlainCall (call : ChunkSend) (s : SendState) : Prop where
  log : ∀ datagram ∈ s.log, PageOrPlain call.publishData datagram
  sending : ∀ snd ∈ s.place.sending,
    snd.publishData = call.publishData ∧ snd.options = call.options
  inLoop : ∀ snd, s.place ≠ .leftLoop snd

variable {call : ChunkSend} {s t : SendState} {e : SendEvent}

/-- An event of the loops keeps what a reliable call keeps and does not give up, if it leaves
the call in its loops, returned with a report of the event, or ended by an exception. -/
theorem PlainCall.of_sent (h : PlainCall call s) {out : Sent}
    (hout : out.Plain call.publishData call.options) (hlog : t.log = s.log ++ out.data)
    (hplace : (∃ snd, out.sending = some snd ∧ t.place.sending = some snd ∧
        ∀ snd', t.place ≠ .leftLoop snd') ∨
      (∃ report, out.report = some report ∧ t.place = .returned report) ∨ t.place = .thrown) :
    PlainCall call t ∧ ¬ ChunkSend.GaveUp t := by
  have hsent : ∀ datagram ∈ t.log, PageOrPlain call.publishData datagram := by
    rw [hlog]
    intro datagram hmem
    rcases List.mem_append.mp hmem with hold | hnew
    · exact h.log datagram hold
    · exact hout.data datagram hnew
  rcases hplace with ⟨snd, hsnd, hgoes, hin⟩ | ⟨report, hreport, hret⟩ | hthrown
  · refine ⟨⟨hsent, fun snd' hsnd' => ?_, hin⟩, fun hgave => ?_⟩
    · obtain rfl : snd = snd' := Option.some.inj (hgoes.symm.trans hsnd')
      exact hout.sending snd hsnd
    · obtain ⟨report, hret, -⟩ := hgave
      rw [hret] at hgoes
      cases hgoes
  · refine ⟨⟨hsent, fun snd hsnd => ?_, fun snd heq => ?_⟩, fun hgave => ?_⟩
    · rw [hret] at hsnd
      cases hsnd
    · rw [hret] at heq
      cases heq
    · obtain ⟨report', hret', hstatus⟩ := hgave
      rw [hret] at hret'
      cases hret'
      exact hout.report report hreport hstatus
  · refine ⟨⟨hsent, fun snd hsnd => ?_, fun snd heq => ?_⟩, fun hgave => ?_⟩
    · rw [hthrown] at hsnd
      cases hsnd
    · rw [hthrown] at heq
      cases heq
    · obtain ⟨report, hret, -⟩ := hgave
      rw [hthrown] at hret
      cases hret

/-- The call goes on with its buffer and options, and sends nothing. -/
theorem PlainCall.of_waiting (h : PlainCall call s) {snd snd' : Sending}
    (hsnd : s.place.sending = some snd) (hlog : t.log = s.log)
    (hgoes : t.place.sending = some snd') (hdata : snd'.publishData = snd.publishData)
    (hoptions : snd'.options = snd.options) (hin : ∀ snd'', t.place ≠ .leftLoop snd'') :
    PlainCall call t ∧ ¬ ChunkSend.GaveUp t := by
  have hkeep := h.sending snd hsnd
  have hout : Sent.Plain call.publishData call.options
      { sending := some snd', knownPeers := t.knownPeers, data := [], report := none } := by
    refine ⟨(fun _ hmem => nomatch hmem), (fun _ hreport => nomatch hreport), fun _ heq => ?_⟩
    cases heq
    exact ⟨hdata.trans hkeep.1, hoptions.trans hkeep.2⟩
  exact h.of_sent hout (by rw [hlog, List.append_nil]) (Or.inl ⟨snd', rfl, hgoes, hin⟩)

/-- A reading of the clock gives up where it is late at one of the two places, and goes on in
the loops elsewhere. -/
theorem clock_cases {ms : ℕ} (hrel : ∀ snd ∈ s.place.sending, snd.options.delivery = .reliable)
    (hstep : call.step s (.clock ms) = some t) : ∃ snd, s.place.sending = some snd ∧
      ((¬ call.InTime s (.clock ms) ∧ t = ChunkSend.giveUp s snd) ∨
        (call.InTime s (.clock ms) ∧ t.log = s.log ∧ t.place.sending = some snd ∧
          ∀ snd', t.place ≠ .leftLoop snd')) := by
  obtain ⟨place, knownPeers, log⟩ := s
  cases place with
  | deadline snd =>
      have hsnd := hrel snd rfl
      simp only [ChunkSend.step, hsnd, true_and] at hstep
      refine ⟨snd, rfl, ?_⟩
      split at hstep <;> cases hstep
      · rename_i hlate
        exact Or.inl ⟨Nat.not_lt.mpr hlate, rfl⟩
      · rename_i htime
        refine Or.inr ⟨Nat.not_le.mp htime, rfl, rfl, ?_⟩
        intro snd' hgone
        cases hgone
  | roundTime snd =>
      have hsnd := hrel snd rfl
      simp only [ChunkSend.step, hsnd, if_true] at hstep
      refine ⟨snd, rfl, Or.inr ⟨trivial, ?_⟩⟩
      split at hstep <;> cases hstep
      all_goals
        refine ⟨rfl, rfl, ?_⟩
        intro snd' hgone
        cases hgone
  | deadlineAgain snd =>
      simp only [ChunkSend.step] at hstep
      refine ⟨snd, rfl, ?_⟩
      split at hstep <;> cases hstep
      · rename_i hlate
        exact Or.inl ⟨Nat.not_lt.mpr hlate, rfl⟩
      · rename_i htime
        refine Or.inr ⟨Nat.not_le.mp htime, rfl, rfl, ?_⟩
        intro snd' hgone
        cases hgone
  | entry => cases hstep
  | receiving snd => cases hstep
  | roundOver snd => cases hstep
  | leftLoop snd => cases hstep
  | returned report => cases hstep
  | thrown => cases hstep

theorem inTime_of_ne_clock (h : ∀ ms, e ≠ .clock ms) : call.InTime s e := by
  unfold ChunkSend.InTime
  split
  · exact absurd rfl (h _)
  · exact absurd rfl (h _)
  · trivial

/-- A step keeps what a reliable call keeps, and gives up at a late reading only, and always
there. -/
theorem plainCall_step (hrel : call.options.delivery = .reliable) (h : PlainCall call s)
    (hstep : call.step s e = some t) :
    PlainCall call t ∧ (¬ ChunkSend.GaveUp t ↔ call.InTime s e) := by
  have hreliable : ∀ snd ∈ s.place.sending, snd.options.delivery = .reliable := by
    intro snd hsnd
    rw [(h.sending snd hsnd).2, hrel]
  cases e with
  | clock ms =>
      obtain ⟨snd, hsnd, ⟨hlate, rfl⟩ | ⟨htime, hlog, hgoes, hin⟩⟩ := clock_cases hreliable hstep
      · refine ⟨⟨h.log, (fun _ heq => nomatch heq), (fun _ heq => nomatch heq)⟩, ?_⟩
        exact iff_of_false (fun hnot => hnot ⟨_, rfl, rfl⟩) hlate
      · obtain ⟨hkept, hgave⟩ := h.of_waiting hsnd hlog hgoes rfl rfl hin
        exact ⟨hkept, iff_of_true hgave htime⟩
  | enter localFail =>
      simp only [ChunkSend.step] at hstep
      split at hstep
      · have hplain := plain_beginSend call.senderId call.sequence s.knownPeers call.publishData
          localFail hrel
        have hkept : PlainCall call t ∧ ¬ ChunkSend.GaveUp t := by
          apply h.of_sent hplain
          · split at hstep <;> cases hstep <;> rfl
          · split at hstep
            · rename_i snd hsnd
              cases hstep
              refine Or.inl ⟨snd, hsnd, rfl, ?_⟩
              intro snd' hgone
              cases hgone
            · rename_i report _ hreport
              cases hstep
              exact Or.inr (Or.inl ⟨report, hreport, rfl⟩)
            · cases hstep
        exact ⟨hkept.1, iff_of_true hkept.2 (inTime_of_ne_clock nofun)⟩
      · cases hstep
  | receive buf =>
      simp only [ChunkSend.step] at hstep
      split at hstep
      · rename_i snd hplace
        have hsnd : s.place.sending = some snd := by rw [hplace]; rfl
        have hkept : PlainCall call t ∧ ¬ ChunkSend.GaveUp t := by
          split at hstep
          · cases hstep
            refine h.of_waiting hsnd rfl rfl rfl rfl ?_
            intro snd' hgone
            cases hgone
          split at hstep
          · cases hstep
            refine ⟨⟨h.log, (fun _ heq => nomatch heq), (fun _ heq => nomatch heq)⟩, fun hgave => ?_⟩
            obtain ⟨report, hret, -⟩ := hgave
            cases hret
          · rename_i knownPeers snd' hcollect
            obtain ⟨hdata, -, hoptions, -⟩ := collect_spec hcollect
            cases hstep
            refine h.of_waiting hsnd rfl ?_ hdata hoptions fun snd'' => ?_
            · dsimp only
              split <;> rfl
            · dsimp only
              split <;> exact nofun
        exact ⟨hkept.1, iff_of_true hkept.2 (inTime_of_ne_clock nofun)⟩
      · cases hstep
  | endRound drained localFail =>
      simp only [ChunkSend.step] at hstep
      split at hstep
      · rename_i snd hplace
        have hsnd : s.place.sending = some snd := by rw [hplace]; rfl
        obtain ⟨hdata, hoptions⟩ := h.sending snd hsnd
        -- the best-effort exits of the outer loop are closed
        have hnot : snd.options.delivery ≠ .bestEffort := by
          rw [hreliable snd hsnd]
          exact nofun
        have hplain := plain_roundEnd call.senderId s.knownPeers snd drained localFail
        rw [hdata, hoptions] at hplain
        have hkept : PlainCall call t ∧ ¬ ChunkSend.GaveUp t := by
          rw [if_neg fun hleave => hnot hleave.2.2] at hstep
          apply h.of_sent hplain
          · split at hstep <;> cases hstep <;> rfl
          · split at hstep
            · rename_i snd' hsnd'
              have hnot' : snd'.options.delivery ≠ .bestEffort := by
                rw [(hplain.sending snd' hsnd').2, hrel]
                exact nofun
              rw [if_neg fun hleave => hnot' hleave.1] at hstep
              cases hstep
              refine Or.inl ⟨snd', hsnd', rfl, ?_⟩
              intro snd'' hgone
              cases hgone
            · rename_i report _ hreport
              cases hstep
              exact Or.inr (Or.inl ⟨report, hreport, rfl⟩)
            · cases hstep
        exact ⟨hkept.1, iff_of_true hkept.2 (inTime_of_ne_clock nofun)⟩
      · cases hstep
  | leave =>
      simp only [ChunkSend.step] at hstep
      split at hstep
      · rename_i snd hplace
        exact absurd hplace (h.inLoop snd)
      · cases hstep

/-- A call that has returned takes no further step. -/
theorem step_of_gaveUp (h : ChunkSend.GaveUp s) : call.step s e = none := by
  obtain ⟨report, hret, -⟩ := h
  cases e <;> simp only [ChunkSend.step, hret]

/-- No final heartbeat is among the datagrams of a reliable call. -/
theorem PlainCall.not_announced (h : PlainCall call s) : ¬ call.Announced s.log := by
  intro hannounced
  obtain ⟨before, notice, after, hlog, hnotice, hpage, -⟩ := hannounced
  have hmem : notice ∈ s.log := by
    rw [hlog]
    exact List.mem_append_right _ List.mem_cons_self
  rcases h.log notice hmem with h | h
  · exact hpage h
  · exact h.not_isFinalNotice hnotice

theorem plainCall_init : PlainCall call call.machine.init where
  log := fun _ h => nomatch h
  sending := fun _ h => nomatch h
  inLoop := fun _ h => nomatch h

/-- **A reliable call.**  In every run it stays inside its outer loop, and no heartbeat it
sends is final. -/
theorem plainCall_of_run (hrel : call.options.delivery = .reliable) {events : List SendEvent}
    (hrun : call.machine.run events = some s) : PlainCall call s :=
  Machine.invariant plainCall_init (fun _ _ _ h hstep => (plainCall_step hrel h hstep).1) hrun

/-! ## Giving up -/

/-- **Notice is given where nothing is given up.**  In a run of a reliable call, `FailedTimeout`
is announced before it is returned if and only if every reading of the clock against
`ack_timeout_ms` is in time: a call that gives up at one of the two places returns at once,
and no heartbeat before was final. -/
theorem givesNotice_iff (call : ChunkSend) (hrel : call.options.delivery = .reliable)
    {events : List SendEvent} {s : SendState} (hrun : call.machine.run events = some s) :
    call.GivesNotice s ↔ call.machine.Guarded call.InTime events := by
  constructor
  · intro hnotice
    have hclean : ¬ ChunkSend.GaveUp s := fun hgave =>
      (plainCall_of_run hrel hrun).not_announced (hnotice hgave)
    apply Machine.guardedFrom_of_unmarked _ _ _ plainCall_init hrun hclean
    · exact fun _ _ _ h hstep => (plainCall_step hrel h hstep).1
    · exact fun _ _ _ h hstep hlate =>
        not_not.mp fun hgave => hlate ((plainCall_step hrel h hstep).2.mp hgave)
    · exact fun _ _ _ hgave hstep => nomatch (step_of_gaveUp hgave).symm.trans hstep
  · intro hguarded hgave
    have hinv : PlainCall call s ∧ ¬ ChunkSend.GaveUp s := by
      apply Machine.invariant_of_guarded _ _ hguarded hrun
      · exact ⟨plainCall_init, fun ⟨_, h, _⟩ => nomatch h⟩
      · intro _ _ _ h htime hstep
        obtain ⟨hkept, hiff⟩ := plainCall_step hrel h.1 hstep
        exact ⟨hkept, hiff.mpr htime⟩
    exact absurd hgave hinv.2

/-- A call for a message of two pages, reliable and with heartbeats, on the publisher's node. -/
def twoPageSend : ChunkSend where
  senderId := 100
  sequence := 0
  knownPeers := []
  publishData := writeMessage 7 1461 [List.replicate 1461 1]
  options := { delivery := .reliable, integrity := .none, sendHeartbeat := true }
  firstWaitMs := 5
  nackWaitMs := 10
  ackTimeoutMs := 55

/-- Nobody answers in the first round; after the second the time is up. -/
def unansweredRun : List SendEvent :=
  [.enter none, .clock 0, .clock 0, .clock 0, .receive [], .endRound [] none,
    .clock 5, .clock 0, .clock 5, .receive [], .endRound [] none, .clock 60]

/-- Nobody has answered after the first round, and the second is under way. -/
theorem givesNotice_iff_twoPageSend :
    ∃ s, twoPageSend.machine.run (unansweredRun.take 10) = some s ∧
      (twoPageSend.GivesNotice s ↔
        twoPageSend.machine.Guarded twoPageSend.InTime (unansweredRun.take 10)) := by
  have hsome : (twoPageSend.machine.run (unansweredRun.take 10)).isSome = true := by
    decide +kernel
  obtain ⟨s, hrun⟩ := Option.isSome_iff_exists.mp hsome
  exact ⟨s, hrun, givesNotice_iff twoPageSend rfl hrun⟩

/-- Not every reliable send of several pages with heartbeats gives notice: the unanswered
call has returned `FailedTimeout`, and only said so to its caller. -/
theorem gives_up_silently :
    ¬ ∀ (call : ChunkSend) (events : List SendEvent) (s : SendState),
      call.options.delivery = .reliable → call.options.sendHeartbeat = true →
      1 < (wirePages call.publishData).length → call.machine.run events = some s →
      call.GivesNotice s := by
  intro hall
  have hend : (twoPageSend.machine.run unansweredRun).map SendState.place
      = some (.returned
        { status := .failedTimeout, crc32c := 0, ackCrc32c := 0, sequence := 0 }) := by
    decide +kernel
  obtain ⟨s, hrun, hplace⟩ := Option.map_eq_some_iff.mp hend
  have hpages : 1 < (wirePages twoPageSend.publishData).length := by decide +kernel
  have hannounced := hall twoPageSend unansweredRun s rfl rfl hpages hrun ⟨_, hplace, rfl⟩
  exact (plainCall_of_run rfl hrun).not_announced hannounced

end DzIpc.Udp
