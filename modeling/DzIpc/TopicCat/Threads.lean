import DzIpc.Library.Machine
import DzIpc.TopicCat.TransportSelect

/-!
# The two threads of the echo tool

One thread of `dzipc_topic_cat` polls the info pool: it attaches a sniffer to the entry that
`select_sniffer_entry` chooses, builds another where the channel has changed, and detaches it where
nothing is left.  The other shows what the sniffer hears, each time under the name of the transport,
and sleeps on a condition while nothing is attached.

A step of the machine is one access to what the threads share.  What a thread does with
`sniffer_use_mutex` held and the other cannot see is one step; `link_type` and `sniffer_epoch` are
atomics which the display reads without the mutex, so that their stores are steps of their own.
-/

namespace DzIpc.TopicCat

open Control.InfoPool

/-! ## The state -/

/-- Where the polling thread stands. -/
inductive Poller where
  | atLoop
  /-- In `check_topic_state`, before the snapshot. -/
  | polling
  | clearing
  | disconnecting
  | building (sel : Selection)
  /-- The mutex is held, and the new sniffer in place. -/
  | linking (sel : Selection)
  /-- The mutex is held, and `link_type` stored. -/
  | counting (sel : Selection)
  | connecting
  | notifying
  | finished
  deriving DecidableEq, Repr

/-- Where the display stands. -/
inductive Display where
  | atLoop
  | choosing
  /-- The predicate of the wait: `state`, then `g_running`. -/
  | testing
  | testingRunning
  /-- The predicate was false, and the thread is not yet in the queue of the condition. -/
  | blocking
  | asleep
  /-- The inner loop: `g_running`, then `state`. -/
  | inLoop
  | inLoopState
  | reading
  | fetching
  /-- It holds what `try_recv` of this sniffer gave, printed. -/
  | labelling (sniffer : ℕ) (request response : Text)
  | finished
  deriving DecidableEq, Repr

/-- A text, and the sniffer that it is from, which only an observer knows. -/
structure Cached where
  sniffer : ℕ
  text : Text
  deriving DecidableEq, Repr

/-- `clear()`. -/
def Cached.empty : Cached := ⟨0, []⟩

/-- A text that is not empty replaces the one in the cache, and the cache is shown. -/
def Cached.refresh (cache : Cached) (sniffer : ℕ) (text : Text) : Cached :=
  if text = [] then cache else ⟨sniffer, text⟩

/-- What a refresh has shown: the sniffer that it asked, the name of the transport and the texts. -/
structure Screen where
  sniffer : ℕ
  isShm : Bool
  request : Cached
  response : Cached
  deriving DecidableEq, Repr

/-- What the polling thread writes.  The sniffers that were built and the last snapshot are what an
observer keeps. -/
structure Attachment where
  poller : Poller
  connected : Bool
  sniffer : Option ℕ
  linkType : Bool
  curSel : Selection
  epoch : UInt64
  built : List Selection
  snapshot : List EntrySnapshot

/-- What the display writes. -/
structure Console where
  display : Display
  seenEpoch : UInt64
  reqCache : Cached
  resCache : Cached
  screens : List Screen

structure CatState where
  running : Bool
  /-- Signal handlers that have not notified yet. -/
  handlers : ℕ
  link : Attachment
  view : Console

def CatState.init : CatState where
  running := true
  handlers := 0
  link :=
    { poller := .atLoop, connected := false, sniffer := none, linkType := false, curSel := .init
      epoch := 0, built := [], snapshot := [] }
  view :=
    { display := .atLoop, seenEpoch := 0, reqCache := .empty, resCache := .empty, screens := [] }

/-! ## The polling thread -/

namespace Attachment

/-- It holds `sniffer_use_mutex`. -/
def locked (l : Attachment) : Bool :=
  match l.poller with
  | .linking _ | .counting _ => true
  | _ => false

/-- `check_topic_state` with a snapshot of the pool. -/
def check (opts : CatOptions) (l : Attachment) (entries : List EntrySnapshot) : Attachment :=
  let sel := selectSnifferEntry opts entries
  { l with
    snapshot := entries
    poller :=
      if !sel.found then if l.connected then .clearing else .disconnecting
      else if l.connected && l.curSel.sameChannel sel then .atLoop
      else .building sel }

def pollStep (running : Bool) (l : Attachment) : Option Attachment :=
  match l.poller with
  | .atLoop => some { l with poller := if running then .polling else .finished }
  | .polling => none
  | .clearing => some { l with sniffer := none, curSel := .init, poller := .disconnecting }
  | .disconnecting => some { l with connected := false, poller := .atLoop }
  | .building sel =>
      some { l with
        sniffer := some l.built.length
        built := l.built ++ [sel]
        poller := .linking sel }
  | .linking sel => some { l with linkType := sel.shm, poller := .counting sel }
  | .counting sel =>
      some { l with curSel := sel, epoch := l.epoch + 1, poller := .connecting }
  | .connecting => some { l with connected := true, poller := .notifying }
  | .notifying => some { l with poller := .atLoop }
  | .finished => none

end Attachment

/-! ## The display -/

namespace Console

/-- `notify_all` of the other thread or of the handler. -/
def notified (v : Console) : Console :=
  { v with display := if v.display = .asleep then .testing else v.display }

/-- The caches are dropped if another sniffer was built. -/
def readEpoch (v : Console) (epoch : UInt64) : Console :=
  if epoch ≠ v.seenEpoch then
    { v with seenEpoch := epoch, reqCache := .empty, resCache := .empty, display := .fetching }
  else { v with display := .fetching }

/-- The display asks the sniffer; without one it leaves the inner loop. -/
def fetch (v : Console) (sniffer : Option ℕ) (request response : Text) : Console :=
  match sniffer with
  | none => { v with display := .atLoop }
  | some n => { v with display := .labelling n request response }

/-- The screen is drawn; a topic has no response. -/
def draw (opts : CatOptions) (v : Console) (linkType : Bool) (n : ℕ) (request response : Text) :
    Console :=
  let req := v.reqCache.refresh n request
  let res := if opts.serOrTopic then v.resCache.refresh n response else v.resCache
  { v with
    reqCache := req
    resCache := res
    screens := v.screens ++ [⟨n, linkType, req, res⟩]
    display := .inLoop }

def step (opts : CatOptions) (running : Bool) (l : Attachment) (v : Console) : Option Console :=
  match v.display with
  | .atLoop => some { v with display := if running then .choosing else .finished }
  | .choosing => some { v with display := if l.connected then .inLoop else .testing }
  | .testing => some { v with display := if l.connected then .atLoop else .testingRunning }
  | .testingRunning => some { v with display := if running then .blocking else .atLoop }
  | .blocking => some { v with display := .asleep }
  | .asleep => none
  | .inLoop => some { v with display := if running then .inLoopState else .atLoop }
  | .inLoopState => some { v with display := if l.connected then .reading else .atLoop }
  | .reading => some (v.readEpoch l.epoch)
  | .fetching => none
  | .labelling n request response => some (v.draw opts l.linkType n request response)
  | .finished => none

end Console

/-! ## The machine -/

inductive CatAction where
  /-- The polling thread takes a snapshot of the pool. -/
  | snapshot (entries : List EntrySnapshot)
  /-- Its next step otherwise. -/
  | poll
  /-- The display locks the mutex and asks the sniffer, if there is one. -/
  | fetch (request response : Text)
  /-- Its next step otherwise. -/
  | display
  /-- The wait ends without a notification. -/
  | spurious
  /-- `SIGINT`: the handler clears `g_running`, and then notifies. -/
  | interrupt
  | handlerNotify
  deriving DecidableEq

def catStep (opts : CatOptions) (s : CatState) : CatAction → Option CatState
  | .snapshot entries =>
      if s.link.poller = .polling then some { s with link := s.link.check opts entries } else none
  | .poll =>
      match s.link.pollStep s.running with
      | some link =>
          some { s with
            link := link
            view := if s.link.poller = .notifying then s.view.notified else s.view }
      | none => none
  | .fetch request response =>
      if s.view.display = .fetching ∧ s.link.locked = false then
        some { s with view := s.view.fetch s.link.sniffer request response }
      else none
  | .display =>
      match s.view.step opts s.running s.link with
      | some view => some { s with view := view }
      | none => none
  | .spurious =>
      if s.view.display = .asleep then some { s with view := s.view.notified } else none
  | .interrupt => some { s with running := false, handlers := s.handlers + 1 }
  | .handlerNotify =>
      if s.handlers = 0 then none
      else some { s with handlers := s.handlers - 1, view := s.view.notified }

def catMachine (opts : CatOptions) : Machine CatState CatAction where
  init := .init
  step := catStep opts

end DzIpc.TopicCat
