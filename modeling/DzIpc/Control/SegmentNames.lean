import DzIpc.Control.Directory
import DzIpc.Library.Decimal
import Mathlib.Data.Set.Defs

/-!
# The names of the segments

The segments of a topic and of a service are named by a prefix with the domain, the name of the
topic and a suffix for the role.  Names go to `libipc` as C strings, which end at the first NUL.

* `roleOf_name` and `domainOf_name`: role and domain can be read off a name, whatever the topic.
* `isolated_iff`: among any endpoints names isolate, exactly if no service has a NUL in its topic
  name, which `minimal_segment_sanitize` lets through and `sanitize_topic_name` does not.
-/

namespace DzIpc.Control.SegmentNames

open InfoPool

/-! ## The rules -/

def lit (s : String) : List UInt8 := bytesOf s.toList

def sanitizeTopicName (topicName : List UInt8) : List UInt8 :=
  topicName.map fun ch =>
    let isAlnum := (48 ≤ ch && ch ≤ 57) || (65 ≤ ch && ch ≤ 90) || (97 ≤ ch && ch ≤ 122)
    -- '_', '-' and '.'
    if isAlnum || ch == 95 || ch == 45 || ch == 46 then ch else 95

/-- On Windows '/' may stand in a name. -/
def minimalSegmentSanitize (win32 : Bool) (name : List UInt8) : List UInt8 :=
  if win32 then name else name.map fun ch => if ch = 47 then 95 else ch

/-- What all names of a domain begin with. -/
def domainPrefix (domainId : UInt64) : List UInt8 :=
  lit "dz_ipc_d" ++ decimal domainId.toNat ++ lit "_"

def shmTopicSegmentName (topicName : List UInt8) (domainId : UInt64) : List UInt8 :=
  domainPrefix domainId ++ sanitizeTopicName topicName ++ lit "_topic"

def shmServicePrefix (win32 : Bool) (topicName : List UInt8) (domainId : UInt64) : List UInt8 :=
  domainPrefix domainId ++ minimalSegmentSanitize win32 topicName

def shmTopicControlName (topicName : List UInt8) (domainId : UInt64) : List UInt8 :=
  shmTopicSegmentName topicName domainId ++ lit "_control2"

def serServiceControlName (win32 : Bool) (topicName : List UInt8) (domainId : UInt64) :
    List UInt8 :=
  shmServicePrefix win32 topicName domainId ++ lit "_ser_control2"

/-! ## Endpoints -/

inductive Kind where
  | topic
  | service
  deriving DecidableEq, Repr

structure Endpoint where
  kind : Kind
  topicName : List UInt8
  domainId : UInt64
  deriving DecidableEq, Repr

inductive Role where
  | topicSegment
  | topicControl
  | serviceRead
  | serviceWrite
  | serviceControl
  deriving DecidableEq, Repr

def Role.kind : Role → Kind
  | .topicSegment | .topicControl => .topic
  | .serviceRead | .serviceWrite | .serviceControl => .service

/-- The name of a segment as a string. -/
def name (win32 : Bool) (e : Endpoint) : Role → List UInt8
  | .topicSegment => shmTopicSegmentName e.topicName e.domainId
  | .topicControl => shmTopicControlName e.topicName e.domainId
  | .serviceRead => shmServicePrefix win32 e.topicName e.domainId ++ lit "_ser_r"
  | .serviceWrite => shmServicePrefix win32 e.topicName e.domainId ++ lit "_ser_w"
  | .serviceControl => serServiceControlName win32 e.topicName e.domainId

/-- The name under which the segment is opened: the string is passed on as its `c_str()`. -/
def shmName (win32 : Bool) (e : Endpoint) (r : Role) : List UInt8 := cString (name win32 e r)

/-- Only segments of one role, kind, domain and sanitized topic name have the same name. -/
def Isolated (win32 : Bool) (e e' : Endpoint) : Prop :=
  ∀ r r', r.kind = e.kind → r'.kind = e'.kind → shmName win32 e r = shmName win32 e' r' →
    r = r' ∧ e.kind = e'.kind ∧ e.domainId = e'.domainId ∧
      sanitizeTopicName e.topicName = sanitizeTopicName e'.topicName

/-! ## The parts of a name -/

/-- What stands between the domain and the suffix. -/
def body (win32 : Bool) (e : Endpoint) : List UInt8 :=
  match e.kind with
  | .topic => sanitizeTopicName e.topicName
  | .service => minimalSegmentSanitize win32 e.topicName

def Role.suffix : Role → List UInt8
  | .topicSegment => lit "_topic"
  | .topicControl => lit "_topic_control2"
  | .serviceRead => lit "_ser_r"
  | .serviceWrite => lit "_ser_w"
  | .serviceControl => lit "_ser_control2"

section

variable {win32 : Bool} {e e' : Endpoint} {r r' : Role}

theorem name_eq (hkind : r.kind = e.kind) :
    name win32 e r = domainPrefix e.domainId ++ (body win32 e ++ r.suffix) := by
  cases r with
  | topicControl =>
      have hsuffix : lit "_topic_control2" = lit "_topic" ++ lit "_control2" := by decide
      rw [name, body, ← hkind, Role.suffix, hsuffix, shmTopicControlName, shmTopicSegmentName]
      simp only [Role.kind, List.append_assoc]
  | _ =>
      rw [name, body, ← hkind]
      simp only [Role.kind, Role.suffix, shmTopicSegmentName, serServiceControlName,
        shmServicePrefix, List.append_assoc]

/-- The role, as the end of a name says it. -/
def roleOf (name : List UInt8) : Option Role :=
  match name.reverse with
  -- 'c', 'r' and 'w'
  | 99 :: _ => some .topicSegment
  | 114 :: _ => some .serviceRead
  | 119 :: _ => some .serviceWrite
  | _ => if name.reverse[9]? = some 99 then some .topicControl else some .serviceControl

/-- **No suffix imitates another.** -/
theorem roleOf_append (front : List UInt8) (r : Role) : roleOf (front ++ r.suffix) = some r := by
  rw [roleOf, List.reverse_append]
  cases r <;> rfl

/-- The digits of the domain, as the beginning of a name says them. -/
def domainOf (name : List UInt8) : List UInt8 :=
  (name.drop 8).takeWhile fun ch => ch ≠ 95

theorem domainOf_append (domainId : UInt64) (rest : List UInt8) :
    domainOf (domainPrefix domainId ++ rest) = decimal domainId.toNat := by
  have hdrop : (lit "dz_ipc_d" ++ (decimal domainId.toNat ++ (lit "_" ++ rest))).drop 8
      = decimal domainId.toNat ++ 95 :: rest := rfl
  rw [domainOf, domainPrefix, List.append_assoc, List.append_assoc, hdrop]
  rw [List.takeWhile_append_of_pos fun ch hch => ?_, List.takeWhile_cons_of_neg (by decide),
    List.append_nil]
  have hdigit := mem_decimal hch
  rw [decide_eq_true_iff]
  rintro rfl
  exact absurd hdigit.2 (by decide)

/-- **No topic name reaches into the domain.** -/
theorem domainId_eq {domainId domainId' : UInt64} {rest rest' : List UInt8}
    (heq : domainPrefix domainId ++ rest = domainPrefix domainId' ++ rest') :
    domainId = domainId' := by
  have hdigits := congrArg domainOf heq
  rw [domainOf_append, domainOf_append] at hdigits
  exact UInt64.toNat_inj.mp (decimal_injective hdigits)

/-! ## Sanitized names -/

/-- What the minimal rule replaces, the full rule replaces alike. -/
theorem sanitize_minimal (topicName : List UInt8) :
    sanitizeTopicName (minimalSegmentSanitize win32 topicName) = sanitizeTopicName topicName := by
  cases win32 with
  | true => rfl
  | false =>
      rw [minimalSegmentSanitize, if_neg (by decide), sanitizeTopicName, sanitizeTopicName,
        List.map_map]
      refine List.map_congr_left fun ch _ => ?_
      by_cases hslash : ch = 47
      · rw [hslash]
        rfl
      · rw [Function.comp_apply, if_neg hslash]

theorem zero_not_mem_sanitize (topicName : List UInt8) : 0 ∉ sanitizeTopicName topicName := by
  intro h
  obtain ⟨ch, -, hch⟩ := List.mem_map.mp h
  simp only at hch
  split at hch
  · rename_i hkept
    rw [hch] at hkept
    exact absurd hkept (by decide)
  · contradiction

theorem zero_mem_minimal (topicName : List UInt8) :
    0 ∈ minimalSegmentSanitize win32 topicName ↔ 0 ∈ topicName := by
  cases win32 with
  | true => rfl
  | false =>
      rw [minimalSegmentSanitize, if_neg (by decide), List.mem_map]
      constructor
      · rintro ⟨ch, hmem, hch⟩
        split at hch
        · contradiction
        · rwa [← hch]
      · exact fun hmem => ⟨0, hmem, rfl⟩

/-! ## C strings -/

theorem cString_append {front : List UInt8} (hfront : 0 ∉ front) (rest : List UInt8) :
    cString (front ++ rest) = front ++ cString rest := by
  unfold cString
  refine List.takeWhile_append_of_pos fun ch hch => decide_eq_true ?_
  rintro rfl
  exact hfront hch

theorem zero_not_mem_domainPrefix (domainId : UInt64) : 0 ∉ domainPrefix domainId := by
  rw [domainPrefix, List.mem_append, List.mem_append]
  rintro ((hfront | hdigit) | hend)
  · exact absurd hfront (by decide)
  · exact absurd (mem_decimal hdigit).1 (by decide)
  · exact absurd hend (by decide)

theorem zero_not_mem_suffix (r : Role) : 0 ∉ r.suffix := by
  cases r <;> decide

theorem zero_mem_body : 0 ∈ body win32 e ↔ e.kind = .service ∧ 0 ∈ e.topicName := by
  unfold body
  cases e.kind with
  | topic => exact iff_of_false (zero_not_mem_sanitize _) (fun h => nomatch h.1)
  | service =>
      rw [zero_mem_minimal]
      exact (and_iff_right rfl).symm

theorem shmName_eq (hkind : r.kind = e.kind) :
    shmName win32 e r = domainPrefix e.domainId ++ cString (body win32 e ++ r.suffix) := by
  rw [shmName, name_eq hkind, cString_append (zero_not_mem_domainPrefix _)]

/-- Where the topic name has no NUL the segment has the name that was built. -/
theorem shmName_plain (hkind : r.kind = e.kind) (hplain : e.kind = .service → 0 ∉ e.topicName) :
    shmName win32 e r = domainPrefix e.domainId ++ (body win32 e ++ r.suffix) := by
  have hbody : 0 ∉ body win32 e := fun h =>
    hplain (zero_mem_body.mp h).1 (zero_mem_body.mp h).2
  rw [shmName_eq hkind, cString_append hbody, (cString_eq_self_iff _).mpr (zero_not_mem_suffix r)]

/-- Where it has one, all segments of the service have one name. -/
theorem shmName_cut (hkind : r.kind = e.kind) (hservice : e.kind = .service)
    (hzero : 0 ∈ e.topicName) :
    shmName win32 e r = domainPrefix e.domainId ++ cString (body win32 e) := by
  obtain ⟨front, rest, hbody⟩ := List.append_of_mem (zero_mem_body.mpr ⟨hservice, hzero⟩)
  rw [shmName_eq hkind, hbody, List.append_assoc, List.cons_append, cString_append_zero,
    cString_append_zero]

/-! ## Isolation -/

/-- **The domain isolates** whatever the topic names are. -/
theorem domainId_eq_of_shmName_eq (hkind : r.kind = e.kind) (hkind' : r'.kind = e'.kind)
    (heq : shmName win32 e r = shmName win32 e' r') : e.domainId = e'.domainId := by
  rw [shmName_eq hkind, shmName_eq hkind'] at heq
  exact domainId_eq heq

theorem sanitize_eq_of_body_eq (hkind : e.kind = e'.kind) (hbody : body win32 e = body win32 e') :
    sanitizeTopicName e.topicName = sanitizeTopicName e'.topicName := by
  unfold body at hbody
  rw [← hkind] at hbody
  cases hservice : e.kind with
  | topic =>
      rw [hservice] at hbody
      exact hbody
  | service =>
      rw [hservice] at hbody
      have hsame := congrArg sanitizeTopicName hbody
      simp only [sanitize_minimal] at hsame
      exact hsame

theorem isolated_of_plain (hplain : e.kind = .service → 0 ∉ e.topicName)
    (hplain' : e'.kind = .service → 0 ∉ e'.topicName) : Isolated win32 e e' := by
  intro r r' hkind hkind' heq
  have hdomain := domainId_eq_of_shmName_eq hkind hkind' heq
  rw [shmName_plain hkind hplain, shmName_plain hkind' hplain', hdomain,
    List.append_cancel_left_eq] at heq
  have hrole : r = r' := by
    have hends := congrArg roleOf heq
    rwa [roleOf_append, roleOf_append, Option.some.injEq] at hends
  subst hrole
  rw [List.append_cancel_right_eq] at heq
  exact ⟨rfl, hkind.symm.trans hkind', hdomain,
    sanitize_eq_of_body_eq (hkind.symm.trans hkind') heq⟩

/-- A service with a NUL in its topic name does not even keep its own segments apart. -/
theorem not_isolated_self (hservice : e.kind = .service) (hzero : 0 ∈ e.topicName) :
    ¬ Isolated win32 e e := by
  intro h
  have hread : Role.serviceRead.kind = e.kind := hservice.symm
  have hwrite : Role.serviceWrite.kind = e.kind := hservice.symm
  have hsame := h .serviceRead .serviceWrite hread hwrite
    ((shmName_cut hread hservice hzero).trans (shmName_cut hwrite hservice hzero).symm)
  exact absurd hsame.1 (by decide)

end

/-- **Names isolate** the endpoints, exactly if no service has a NUL in its topic name. -/
theorem isolated_iff (win32 : Bool) (endpoints : Set Endpoint) :
    (∀ e ∈ endpoints, ∀ e' ∈ endpoints, Isolated win32 e e') ↔
      ∀ e ∈ endpoints, e.kind = .service → 0 ∉ e.topicName := by
  constructor
  · intro h e he hservice hzero
    exact not_isolated_self hservice hzero (h e he e he)
  · intro h e he e' he'
    exact isolated_of_plain (h e he) (h e' he')

/-- The service "foo_topic", cut at a NUL, reads from the segment of the topic "foo". -/
theorem service_crosses_topic :
    ¬ Isolated false ⟨.topic, lit "foo", 0⟩ ⟨.service, lit "foo_topic" ++ [0], 0⟩ := by
  intro h
  have hsame := h .topicSegment .serviceRead rfl rfl (by decide)
  exact absurd hsame.1 (by decide)

end DzIpc.Control.SegmentNames
