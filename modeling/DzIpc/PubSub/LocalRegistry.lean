import Mathlib.Data.List.Nodup
import Mathlib.Logic.Function.Basic

/-!
# The registry of local subscribers

`LocalPubSubRegistry` keeps, for every channel of its process, the weak pointers to the queues
of the subscribers registered there.  Each of its operations is one critical section of its
mutex.  A queue is known by its subscriber's number, and `live` tells which queues still have an
owner, that is, which weak pointers can be locked.

* `Distinct` says that no queue is entered twice, and every operation keeps it;
* `subscriberSnapshot_cleanupExpired` says that nobody sees the lazy cleanup.
-/

namespace DzIpc.PubSub

inductive ChannelKind where
  | shmPubSub
  | socketPubSub
  | shmService
  deriving DecidableEq, Repr

structure ChannelKey where
  topicName : List Char
  domainId : ℕ
  msgId : ℕ
  kind : ChannelKind := .shmPubSub
  deriving DecidableEq, Repr

/-- `registry_`; a channel without an entry has no queues. -/
abbrev LocalRegistry := ChannelKey → List ℕ

namespace LocalRegistry

variable (live : ℕ → Bool) (reg : LocalRegistry) (key : ChannelKey) (queue : ℕ)

/-- `register_subscriber`: an expired queue is not entered, nor one that is there. -/
def registerSubscriber : LocalRegistry :=
  if !live queue || queue ∈ reg key then reg
  else Function.update reg key (reg key ++ [queue])

/-- `unregister_subscriber`, which drops the expired ones on its way. -/
def unregisterSubscriber : LocalRegistry :=
  Function.update reg key ((reg key).filter fun q => live q && q != queue)

/-- `subscriber_snapshot`: what it returns. -/
def subscriberSnapshot : List ℕ := (reg key).filter live

/-- `subscriber_snapshot`: what its lazy cleanup leaves. -/
def cleanupExpired : LocalRegistry :=
  if (reg key).all live then reg else Function.update reg key ((reg key).filter live)

variable {live reg key queue}

/-- No queue is entered twice under a key. -/
def Distinct (reg : LocalRegistry) : Prop := ∀ key, (reg key).Nodup

theorem Distinct.update (h : Distinct reg) {queues : List ℕ} (hqueues : queues.Nodup) :
    Distinct (Function.update reg key queues) := by
  intro key'
  by_cases hkey : key' = key
  · subst hkey
    rwa [Function.update_self]
  · rw [Function.update_of_ne hkey]
    exact h key'

theorem Distinct.registerSubscriber (h : Distinct reg) :
    Distinct (registerSubscriber live reg key queue) := by
  unfold LocalRegistry.registerSubscriber
  split
  · exact h
  · rename_i hnew
    apply h.update
    have hfresh : queue ∉ reg key := fun hmem => hnew (by simp [hmem])
    exact List.nodup_append.mpr ⟨h key, by simp, fun a ha b hb hab => hfresh (by
      rw [← List.mem_singleton.mp hb, ← hab]
      exact ha)⟩

theorem Distinct.unregisterSubscriber (h : Distinct reg) :
    Distinct (unregisterSubscriber live reg key queue) :=
  h.update ((h key).filter _)

theorem Distinct.cleanupExpired (h : Distinct reg) : Distinct (cleanupExpired live reg key) := by
  unfold LocalRegistry.cleanupExpired
  split
  · exact h
  · exact h.update ((h key).filter _)

theorem Distinct.subscriberSnapshot (h : Distinct reg) : (subscriberSnapshot live reg key).Nodup :=
  (h key).filter _

/-- A cleanup does not change what a snapshot returns. -/
theorem subscriberSnapshot_cleanupExpired (key' : ChannelKey) :
    subscriberSnapshot live (cleanupExpired live reg key) key' =
      subscriberSnapshot live reg key' := by
  unfold LocalRegistry.cleanupExpired
  split
  · rfl
  · by_cases hkey : key' = key
    · subst hkey
      unfold LocalRegistry.subscriberSnapshot
      rw [Function.update_self, List.filter_filter]
      simp
    · unfold LocalRegistry.subscriberSnapshot
      rw [Function.update_of_ne hkey]

end LocalRegistry

end DzIpc.PubSub
