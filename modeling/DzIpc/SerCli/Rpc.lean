import DzIpc.Common.CircularQueue
import DzIpc.Library.Machine
import Mathlib.Data.List.Perm.Subperm

/-!
# Requests and replies of the shared-memory service

One client, `shm_cli_ipc::send_request`, and one server, `shm_ser_ipc::response_thread_func`.
A call goes over the ring or, once the gate has seen one local server often enough, through the
server's fast-path queue, with a reply queue of its own; either way it may time out while its
request or its reply is still under way.

* `Once`: a request is in one place, from the call that makes it to the callback.
* `Ordered`: the calls under way on the ring stand in the order they were made in.
-/

namespace DzIpc.SerCli.Rpc

variable {Req Res : Type}

/-! ## The messages and the caller's object -/

/-- A request, with the call it was sent for. -/
structure Request (Req : Type) where
  call : ℕ
  body : Req
  deriving DecidableEq

/-- A reply, with the call whose request it answers. -/
structure Reply (Res : Type) where
  call : ℕ
  body : Res
  deriving DecidableEq

/-- A reply on the ring; `flat` where `classify_received` lends it as a sample (1), and not
where it is left to `accept_wire` (0). -/
structure Response (Res : Type) where
  reply : Reply Res
  flat : Bool
  deriving DecidableEq

/-- One run of the callback: the request it got and what it answered. -/
structure Execution (Req Res : Type) where
  request : Request Req
  body : Res
  deriving DecidableEq

def Execution.reply (e : Execution Req Res) : Reply Res := ⟨e.request.call, e.body⟩

/-- The receiving side of a `ServiceData`: `response()`, none for the clone of the template,
and `response_sample()`. -/
structure Service (Res : Type) where
  response : Option (Reply Res)
  sample : Option (Reply Res)
  deriving DecidableEq

/-- What the caller reads: `response_view()` where `response_is_view()`, else `response()`. -/
def Service.seen (o : Service Res) : Option (Reply Res) :=
  match o.sample with
  | some r => some r
  | none => o.response

/-- A response of the ring is stored in the object: lent as a sample, or materialized. -/
def Service.take (o : Service Res) (r : Response Res) : Service Res :=
  if r.flat then { o with sample := some r.reply } else { o with response := some r.reply }

/-! ## The gate of the fast path -/

/-- `last_fp_ser_key_`, of which only the message id varies, `last_fp_ser_snapshot_size_` and
`fp_consecutive_`. -/
structure Gate where
  key : Option ℕ
  size : ℕ
  consecutive : ℕ
  deriving DecidableEq

def kFastPathConfirm : ℕ := 3

/-- The block under `fast_path_mtx_`: the new gate, and `use_fp`. -/
def Gate.observe (g : Gate) (msgId serverCount : ℕ) : Gate × Bool :=
  let consecutive := if g.key = some msgId ∧ g.size = serverCount then g.consecutive else 0
  if serverCount = 1 then
    (⟨some msgId, serverCount, consecutive + 1⟩, decide (kFastPathConfirm ≤ consecutive + 1))
  else (⟨some msgId, serverCount, 0⟩, false)

/-! ## The two threads -/

/-- Where `send_request` stands: not called, waiting in `recv` on the ring, or in `pop` on its
reply queue; with the call and the caller's object. -/
inductive Client where
  | idle
  | ring (call obj : ℕ)
  | fast (call obj : ℕ)
  deriving DecidableEq

/-- Where the loop of `response_thread_func` stands: before `try_pop`, in `recv(50)`, or with a
request in hand, from the fast path or from the ring. -/
inductive Server (Req : Type) where
  | polling
  | receiving
  | busy (fast : Bool) (request : Request Req)
  deriving DecidableEq

/-- A call that returned true, and what its object showed then. -/
structure Answer (Res : Type) where
  call : ℕ
  seen : Option (Reply Res)
  deriving DecidableEq

/-- The client, its objects, the two directions of the ring, the server's fast-path queue, the
reply queue of each fast call and the server; and an observer's record: the requests of the
calls made, the runs of the callback, the calls that returned true, and how many ring calls
timed out and how many ring messages were dropped. -/
structure State (Req Res : Type) where
  gate : Gate
  client : Client
  objs : ℕ → Service Res
  requests : List (Request Req)
  responses : List (Response Res)
  fpQueue : List (Request Req)
  mail : ℕ → Option (Reply Res)
  server : Server Req
  made : List Req
  served : List (Execution Req Res)
  answers : List (Answer Res)
  expired : ℕ
  lost : ℕ

/-- The choices from outside: the caller's object and request, what the registry shows and
whether `try_send` succeeds; whether a response is accepted; when a wait ends; whether the
server accepts a request, and its callback's answer. -/
inductive Action (Req Res : Type) where
  | call (obj msgId : ℕ) (body : Req) (nodelet : Bool) (serverCount : ℕ) (sent : Bool)
  | receive (accepted : Bool)
  | pick
  | timeout
  | poll
  | fetch
  | lapse
  | discard
  | answer (body : Res) (flat sent : Bool)

def init : State Req Res where
  gate := ⟨none, 0, 0⟩
  client := .idle
  objs := fun _ => ⟨none, none⟩
  requests := []
  responses := []
  fpQueue := []
  mail := fun _ => none
  server := .polling
  made := []
  served := []
  answers := []
  expired := 0
  lost := 0

/-- The capacity of the server's `fp_queue_`. -/
def fpCapacity : ℕ := 16

/-- The gate after a call has looked at it, and whether the call takes the fast path. -/
def State.observe (s : State Req Res) (nodelet : Bool) (msgId serverCount : ℕ) : Gate × Bool :=
  if nodelet then s.gate.observe msgId serverCount else (s.gate, false)

/-- `send_request` after the handshake check, up to its wait: an envelope is pushed, or the
request is sent and the sample of the last response dropped, or the call returns false. -/
def State.sendRequest (s : State Req Res) (obj msgId : ℕ) (body : Req) (nodelet : Bool)
    (serverCount : ℕ) (sent : Bool) : State Req Res :=
  let seen := s.observe nodelet msgId serverCount
  let request : Request Req := ⟨s.made.length, body⟩
  if seen.2 then
    { s with
      gate := seen.1
      client := .fast s.made.length obj
      fpQueue := Common.Fifo.push fpCapacity s.fpQueue request
      made := s.made ++ [body] }
  else if sent then
    { s with
      gate := seen.1
      client := .ring s.made.length obj
      objs := Function.update s.objs obj { s.objs obj with sample := none }
      requests := s.requests ++ [request]
      made := s.made ++ [body] }
  else { s with gate := seen.1 }

/-- The call `k` returns true; its object is now `o`. -/
def State.return (s : State Req Res) (k obj : ℕ) (o : Service Res) : State Req Res :=
  { s with
    client := .idle
    objs := Function.update s.objs obj o
    answers := s.answers ++ [⟨k, o.seen⟩] }

/-- The callback has answered the request in hand: the reply goes to the reply queue in the
envelope, or to the ring. -/
def State.reply (s : State Req Res) (fast : Bool) (q : Request Req) (body : Res)
    (flat sent : Bool) : State Req Res :=
  if fast then
    { s with
      server := .polling
      served := s.served ++ [⟨q, body⟩]
      mail := Function.update s.mail q.call (some ⟨q.call, body⟩) }
  else if sent then
    { s with
      server := .polling
      served := s.served ++ [⟨q, body⟩]
      responses := s.responses ++ [⟨⟨q.call, body⟩, flat⟩] }
  else
    { s with
      server := .polling
      served := s.served ++ [⟨q, body⟩]
      lost := s.lost + 1 }

def step (s : State Req Res) : Action Req Res → Option (State Req Res)
  | .call obj msgId body nodelet serverCount sent =>
      match s.client with
      | .idle => some (s.sendRequest obj msgId body nodelet serverCount sent)
      | _ => none
  | .receive accepted =>
      match s.client, s.responses with
      | .ring k obj, r :: rest =>
          if accepted then some ({ s with responses := rest }.return k obj ((s.objs obj).take r))
          else some { s with responses := rest, lost := s.lost + 1 }
      | _, _ => none
  | .pick =>
      match s.client with
      | .fast k obj =>
          match s.mail k with
          | some r => some (s.return k obj { s.objs obj with response := some r })
          | none => none
      | _ => none
  | .timeout =>
      match s.client with
      | .ring _ _ => some { s with client := .idle, expired := s.expired + 1 }
      | .fast _ _ => some { s with client := .idle }
      | .idle => none
  | .poll =>
      match s.server, s.fpQueue with
      | .polling, q :: rest => some { s with fpQueue := rest, server := .busy true q }
      | .polling, [] => some { s with server := .receiving }
      | _, _ => none
  | .fetch =>
      match s.server, s.requests with
      | .receiving, q :: rest => some { s with requests := rest, server := .busy false q }
      | _, _ => none
  | .lapse =>
      match s.server with
      | .receiving => some { s with server := .polling }
      | _ => none
  | .discard =>
      match s.server with
      | .busy true _ => some { s with server := .polling }
      | .busy false _ => some { s with server := .polling, lost := s.lost + 1 }
      | _ => none
  | .answer body flat sent =>
      match s.server with
      | .busy fast q => some (s.reply fast q body flat sent)
      | _ => none

def machine (Req Res : Type) : Machine (State Req Res) (Action Req Res) := ⟨init, step⟩

/-! ## What a step does -/

/-- The steps of the two threads. -/
inductive Step (s : State Req Res) : Action Req Res → State Req Res → Prop
  | call {obj msgId body nodelet serverCount sent} (hc : s.client = .idle) :
      Step s (.call obj msgId body nodelet serverCount sent)
        (s.sendRequest obj msgId body nodelet serverCount sent)
  | receive {k obj r rest} (hc : s.client = .ring k obj) (hr : s.responses = r :: rest) :
      Step s (.receive true) ({ s with responses := rest }.return k obj ((s.objs obj).take r))
  | reject {k obj r rest} (hc : s.client = .ring k obj) (hr : s.responses = r :: rest) :
      Step s (.receive false) { s with responses := rest, lost := s.lost + 1 }
  | pick {k obj r} (hc : s.client = .fast k obj) (hm : s.mail k = some r) :
      Step s .pick (s.return k obj { s.objs obj with response := some r })
  | expire {k obj} (hc : s.client = .ring k obj) :
      Step s .timeout { s with client := .idle, expired := s.expired + 1 }
  | giveUp {k obj} (hc : s.client = .fast k obj) : Step s .timeout { s with client := .idle }
  | pop {q rest} (hs : s.server = .polling) (hq : s.fpQueue = q :: rest) :
      Step s .poll { s with fpQueue := rest, server := .busy true q }
  | listen (hs : s.server = .polling) (hq : s.fpQueue = []) :
      Step s .poll { s with server := .receiving }
  | fetch {q rest} (hs : s.server = .receiving) (hq : s.requests = q :: rest) :
      Step s .fetch { s with requests := rest, server := .busy false q }
  | lapse (hs : s.server = .receiving) : Step s .lapse { s with server := .polling }
  | skip {q} (hs : s.server = .busy true q) : Step s .discard { s with server := .polling }
  | discard {q} (hs : s.server = .busy false q) :
      Step s .discard { s with server := .polling, lost := s.lost + 1 }
  | answer {fast q body flat sent} (hs : s.server = .busy fast q) :
      Step s (.answer body flat sent) (s.reply fast q body flat sent)

theorem step_cases {s t : State Req Res} {a : Action Req Res} (hstep : step s a = some t) :
    Step s a t := by
  cases a with
  | call obj msgId body nodelet serverCount sent =>
      simp only [step] at hstep
      split at hstep
      next hc =>
        cases hstep
        exact .call hc
      next => cases hstep
  | receive accepted =>
      simp only [step] at hstep
      split at hstep
      next k obj r rest hc hr =>
        cases accepted with
        | true =>
            cases hstep
            exact .receive hc hr
        | false =>
            cases hstep
            exact .reject hc hr
      next => cases hstep
  | pick =>
      simp only [step] at hstep
      split at hstep
      next k obj hc =>
        split at hstep
        next r hm =>
          cases hstep
          exact .pick hc hm
        next => cases hstep
      next => cases hstep
  | timeout =>
      simp only [step] at hstep
      split at hstep
      next hc =>
        cases hstep
        exact .expire hc
      next hc =>
        cases hstep
        exact .giveUp hc
      next => cases hstep
  | poll =>
      simp only [step] at hstep
      split at hstep
      next hs hq =>
        cases hstep
        exact .pop hs hq
      next hs hq =>
        cases hstep
        exact .listen hs hq
      next => cases hstep
  | fetch =>
      simp only [step] at hstep
      split at hstep
      next hs hq =>
        cases hstep
        exact .fetch hs hq
      next => cases hstep
  | lapse =>
      simp only [step] at hstep
      split at hstep
      next hs =>
        cases hstep
        exact .lapse hs
      next => cases hstep
  | discard =>
      simp only [step] at hstep
      split at hstep
      next hs =>
        cases hstep
        exact .skip hs
      next hs =>
        cases hstep
        exact .discard hs
      next => cases hstep
  | answer body flat sent =>
      simp only [step] at hstep
      split at hstep
      next hs =>
        cases hstep
        exact .answer hs
      next => cases hstep

/-- `sendRequest` takes the fast path, sends on the ring, or returns false. -/
theorem sendRequest_cases (s : State Req Res) (obj msgId : ℕ) (body : Req) (nodelet : Bool)
    (serverCount : ℕ) (sent : Bool) {P : State Req Res → Prop}
    (hfast : ∀ gate, P { s with
      gate := gate
      client := .fast s.made.length obj
      fpQueue := Common.Fifo.push fpCapacity s.fpQueue ⟨s.made.length, body⟩
      made := s.made ++ [body] })
    (hring : ∀ gate, P { s with
      gate := gate
      client := .ring s.made.length obj
      objs := Function.update s.objs obj { s.objs obj with sample := none }
      requests := s.requests ++ [⟨s.made.length, body⟩]
      made := s.made ++ [body] })
    (hrefuse : ∀ gate, P { s with gate := gate }) :
    P (s.sendRequest obj msgId body nodelet serverCount sent) := by
  unfold State.sendRequest
  dsimp only
  split
  · exact hfast _
  · split
    · exact hring _
    · exact hrefuse _

/-- A reply goes to the reply queue, to the ring, or nowhere. -/
theorem reply_cases (s : State Req Res) (fast : Bool) (q : Request Req) (body : Res)
    (flat sent : Bool) {P : State Req Res → Prop}
    (hfast : fast = true → P { s with
      server := .polling
      served := s.served ++ [⟨q, body⟩]
      mail := Function.update s.mail q.call (some ⟨q.call, body⟩) })
    (hring : fast = false → P { s with
      server := .polling
      served := s.served ++ [⟨q, body⟩]
      responses := s.responses ++ [⟨⟨q.call, body⟩, flat⟩] })
    (hlost : fast = false → P { s with
      server := .polling
      served := s.served ++ [⟨q, body⟩]
      lost := s.lost + 1 }) :
    P (s.reply fast q body flat sent) := by
  unfold State.reply
  split
  next h => exact hfast h
  next h =>
    split
    · exact hring (by simpa using h)
    · exact hlost (by simpa using h)

/-! ## A request is in one place -/

/-- The request in the server's hand. -/
def State.hand (s : State Req Res) : List (Request Req) :=
  match s.server with
  | .busy _ q => [q]
  | _ => []

/-- The requests the callback has run on, and those it may yet run on. -/
def State.known (s : State Req Res) : List (Request Req) :=
  s.served.map Execution.request ++ s.hand ++ s.requests ++ s.fpQueue

/-- Every request that is known is that of a call made, and of no other known request's call. -/
structure Once (s : State Req Res) : Prop where
  nodup : (s.known.map Request.call).Nodup
  made : ∀ q ∈ s.known, s.made[q.call]? = some q.body

theorem Once.of_subperm {s t : State Req Res} (h : Once s) (hknown : List.Subperm t.known s.known)
    (hmade : t.made = s.made) : Once t where
  nodup := by
    obtain ⟨l, hperm, hsub⟩ := hknown
    exact (hperm.map _).nodup_iff.mp (h.nodup.sublist (hsub.map _))
  made q hq := by
    rw [hmade]
    exact h.made q (hknown.subset hq)

theorem Once.lt {s : State Req Res} (h : Once s) {q : Request Req} (hq : q ∈ s.known) :
    q.call < s.made.length :=
  (List.getElem?_eq_some_iff.mp (h.made q hq)).1

/-- A new request is that of a new call. -/
theorem Once.extend {s t : State Req Res} (h : Once s) {body : Req}
    (hknown : List.Subperm t.known (s.known ++ [⟨s.made.length, body⟩]))
    (hmade : t.made = s.made ++ [body]) : Once t where
  nodup := by
    have hnodup : ((s.known ++ [(⟨s.made.length, body⟩ : Request Req)]).map Request.call).Nodup := by
      rw [List.map_append, List.nodup_append]
      refine ⟨h.nodup, List.pairwise_singleton _ _, fun a ha b hb hab => ?_⟩
      obtain ⟨q, hq, rfl⟩ := List.mem_map.mp ha
      have hlt : q.call < s.made.length := h.lt hq
      rw [hab, List.mem_singleton.mp hb] at hlt
      exact lt_irrefl _ hlt
    obtain ⟨l, hperm, hsub⟩ := hknown
    exact (hperm.map _).nodup_iff.mp (hnodup.sublist (hsub.map _))
  made q hq := by
    rw [hmade]
    rcases List.mem_append.mp (hknown.subset hq) with hold | hnew
    · rw [List.getElem?_append_left (h.lt hold)]
      exact h.made q hold
    · rw [List.mem_singleton.mp hnew]
      simp

theorem push_subperm {α : Type} (capacity : ℕ) (xs : List α) (x : α) :
    List.Subperm (Common.Fifo.push capacity xs x) (xs ++ [x]) := by
  unfold Common.Fifo.push
  split
  · exact List.Subperm.refl _
  · exact ((List.tail_sublist xs).append_right _).subperm

theorem Once.step {s t : State Req Res} {a : Action Req Res} (h : Once s)
    (hstep : step s a = some t) : Once t := by
  classical
  cases step_cases hstep with
  | @call obj msgId body _ _ _ hc =>
      apply sendRequest_cases
      case hfast =>
        refine fun gate => h.extend ?_ rfl
        have hpush := push_subperm fpCapacity s.fpQueue ⟨s.made.length, body⟩
        rw [List.subperm_iff_count] at hpush ⊢
        intro q
        have hq := hpush q
        simp only [State.known, State.hand, List.count_append] at hq ⊢
        omega
      case hring =>
        refine fun gate => h.extend ?_ rfl
        rw [List.subperm_iff_count]
        intro q
        simp only [State.known, State.hand, List.count_append]
        omega
      case hrefuse => exact fun gate => h.of_subperm (List.Subperm.refl _) rfl
  | receive hc hr => exact h.of_subperm (List.Subperm.refl _) rfl
  | reject hc hr => exact h.of_subperm (List.Subperm.refl _) rfl
  | pick hc hm => exact h.of_subperm (List.Subperm.refl _) rfl
  | expire hc => exact h.of_subperm (List.Subperm.refl _) rfl
  | giveUp hc => exact h.of_subperm (List.Subperm.refl _) rfl
  | pop hs hq =>
      refine h.of_subperm ?_ rfl
      rw [List.subperm_iff_count]
      intro q
      simp only [State.known, State.hand, hs, hq, List.count_append, List.count_cons,
        List.count_nil]
      omega
  | listen hs hq =>
      refine h.of_subperm ?_ rfl
      simp only [State.known, State.hand, hs]
      exact List.Subperm.refl _
  | fetch hs hq =>
      refine h.of_subperm ?_ rfl
      simp only [State.known, State.hand, hs, hq, List.append_assoc, List.nil_append,
        List.cons_append]
      exact List.Subperm.refl _
  | lapse hs =>
      refine h.of_subperm ?_ rfl
      simp only [State.known, State.hand, hs]
      exact List.Subperm.refl _
  | skip hs =>
      refine h.of_subperm ?_ rfl
      rw [List.subperm_iff_count]
      intro q
      simp only [State.known, State.hand, hs, List.count_append, List.count_cons, List.count_nil]
      omega
  | discard hs =>
      refine h.of_subperm ?_ rfl
      rw [List.subperm_iff_count]
      intro q
      simp only [State.known, State.hand, hs, List.count_append, List.count_cons, List.count_nil]
      omega
  | @answer fast q body flat sent hs =>
      -- The request in hand becomes the last one that was served.
      have hmoved : ∀ t : State Req Res, t.served = s.served ++ [⟨q, body⟩] → t.server = .polling →
          t.requests = s.requests → t.fpQueue = s.fpQueue → t.made = s.made → Once t := by
        intro t hserved hserver hrequests hqueue hmade
        have hknown : t.known = s.known := by
          simp [State.known, State.hand, hserved, hserver, hrequests, hqueue, hs]
        exact h.of_subperm (List.Perm.of_eq hknown).subperm hmade
      apply reply_cases
      case hfast => exact fun _ => hmoved _ rfl rfl rfl rfl rfl
      case hring => exact fun _ => hmoved _ rfl rfl rfl rfl rfl
      case hlost => exact fun _ => hmoved _ rfl rfl rfl rfl rfl

/-! ## The calls under way on the ring -/

/-- The call whose request from the ring is in the server's hand. -/
def State.ringHand (s : State Req Res) : List ℕ :=
  match s.server with
  | .busy false q => [q.call]
  | _ => []

/-- The calls under way on the ring, from the response that is received next to the last
request that was sent. -/
def State.line (s : State Req Res) : List ℕ :=
  s.responses.map (fun r => r.reply.call) ++ s.ringHand ++ s.requests.map Request.call

/-- The calls under way stand in the order they were made in, and a call that waits is the
last one. -/
structure Ordered (s : State Req Res) : Prop where
  sorted : s.line.Pairwise (· < ·)
  below : ∀ j ∈ s.line, j < s.made.length
  ring : ∀ k obj, s.client = .ring k obj → k + 1 = s.made.length
  fast : ∀ k obj, s.client = .fast k obj → k + 1 = s.made.length

theorem Ordered.of_sublist {s t : State Req Res} (h : Ordered s) (hline : t.line.Sublist s.line)
    (hmade : t.made = s.made) (hclient : t.client = s.client ∨ t.client = .idle) :
    Ordered t where
  sorted := h.sorted.sublist hline
  below j hj := by
    rw [hmade]
    exact h.below j (hline.subset hj)
  ring k obj hc := by
    rw [hmade]
    rcases hclient with hsame | hidle
    · exact h.ring k obj (hsame ▸ hc)
    · cases hidle.symm.trans hc
  fast k obj hc := by
    rw [hmade]
    rcases hclient with hsame | hidle
    · exact h.fast k obj (hsame ▸ hc)
    · cases hidle.symm.trans hc

theorem line_received {s : State Req Res} {r : Response Res} {rest : List (Response Res)}
    (hr : s.responses = r :: rest) :
    s.line = r.reply.call :: State.line { s with responses := rest } := by
  simp [State.line, State.ringHand, hr]

theorem Ordered.step {s t : State Req Res} {a : Action Req Res} (h : Ordered s)
    (hstep : step s a = some t) : Ordered t := by
  cases step_cases hstep with
  | @call obj msgId body _ _ _ hc =>
      apply sendRequest_cases
      case hfast =>
        intro gate
        refine ⟨h.sorted, fun j hj => ?_, fun k obj hk => (by cases hk), fun k obj hk => ?_⟩
        · rw [List.length_append]
          exact Nat.lt_add_right _ (h.below j hj)
        · cases hk
          simp
      case hring =>
        intro gate
        have hline : State.line { s with
            gate := gate
            client := .ring s.made.length obj
            objs := Function.update s.objs obj { s.objs obj with sample := none }
            requests := s.requests ++ [⟨s.made.length, body⟩]
            made := s.made ++ [body] } = s.line ++ [s.made.length] := by
          simp [State.line, State.ringHand]
        refine ⟨?_, fun j hj => ?_, fun k obj hk => ?_, fun k obj hk => (by cases hk)⟩
        · rw [hline, List.pairwise_append]
          refine ⟨h.sorted, List.pairwise_singleton _ _, fun j hj k hk => ?_⟩
          rw [List.mem_singleton.mp hk]
          exact h.below j hj
        · rw [hline] at hj
          rw [List.length_append]
          rcases List.mem_append.mp hj with hold | hnew
          · exact Nat.lt_add_right _ (h.below j hold)
          · rw [List.mem_singleton.mp hnew]
            exact Nat.lt_succ_self _
        · cases hk
          simp
      case hrefuse => exact fun gate => h.of_sublist (List.Sublist.refl _) rfl (Or.inl rfl)
  | receive hc hr =>
      refine h.of_sublist ?_ rfl (Or.inr rfl)
      rw [line_received hr]
      exact List.sublist_cons_self _ _
  | reject hc hr =>
      refine h.of_sublist ?_ rfl (Or.inl rfl)
      rw [line_received hr]
      exact List.sublist_cons_self _ _
  | pick hc hm => exact h.of_sublist (List.Sublist.refl _) rfl (Or.inr rfl)
  | expire hc => exact h.of_sublist (List.Sublist.refl _) rfl (Or.inr rfl)
  | giveUp hc => exact h.of_sublist (List.Sublist.refl _) rfl (Or.inr rfl)
  | pop hs hq =>
      refine h.of_sublist ?_ rfl (Or.inl rfl)
      simp only [State.line, State.ringHand, hs]
      exact List.Sublist.refl _
  | listen hs hq =>
      refine h.of_sublist ?_ rfl (Or.inl rfl)
      simp only [State.line, State.ringHand, hs]
      exact List.Sublist.refl _
  | fetch hs hq =>
      refine h.of_sublist ?_ rfl (Or.inl rfl)
      simp [State.line, State.ringHand, hs, hq]
  | lapse hs =>
      refine h.of_sublist ?_ rfl (Or.inl rfl)
      simp only [State.line, State.ringHand, hs]
      exact List.Sublist.refl _
  | skip hs =>
      refine h.of_sublist ?_ rfl (Or.inl rfl)
      simp only [State.line, State.ringHand, hs]
      exact List.Sublist.refl _
  | discard hs =>
      refine h.of_sublist ?_ rfl (Or.inl rfl)
      simp [State.line, State.ringHand, hs]
  | answer hs =>
      apply reply_cases
      case hfast =>
        rintro rfl
        refine h.of_sublist ?_ rfl (Or.inl rfl)
        simp only [State.line, State.ringHand, hs]
        exact List.Sublist.refl _
      case hring =>
        rintro rfl
        refine h.of_sublist ?_ rfl (Or.inl rfl)
        simp [State.line, State.ringHand, hs]
      case hlost =>
        rintro rfl
        refine h.of_sublist ?_ rfl (Or.inl rfl)
        simp [State.line, State.ringHand, hs]

end DzIpc.SerCli.Rpc
