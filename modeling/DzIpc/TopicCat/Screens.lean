import DzIpc.TopicCat.Attached

/-!
# What the screens of the echo tool show

The display reads `sniffer_epoch` without the mutex, asks the sniffer with it, and reads `link_type`
without it again, so that a sniffer built in between is shown under the wrong name, or with a text
of the one before.

* `screens_true`: where no store of a rebuild falls into the making of a screen, each screen shows
  what the sniffer that it asked has heard, under the name of its transport.
* `false_screens_le`: in any run, each rebuild is charged with at most two screens that do not.
-/

namespace DzIpc.TopicCat

open Control.InfoPool

variable {opts : CatOptions}

/-! ## Screens that tell the truth -/

/-- The text is empty or from this sniffer. -/
def Cached.IsFrom (text : Cached) (n : ℕ) : Prop := text.text = [] ∨ text.sniffer = n

instance (text : Cached) (n : ℕ) : Decidable (text.IsFrom n) :=
  inferInstanceAs (Decidable (_ ∨ _))

/-- The name is that of the sniffer that was asked, and the texts are from it. -/
def Screen.IsTrue (built : List Selection) (sc : Screen) : Prop :=
  (built[sc.sniffer]?).map Selection.shm = some sc.isShm ∧ sc.request.IsFrom sc.sniffer ∧
    sc.response.IsFrom sc.sniffer

instance (built : List Selection) (sc : Screen) : Decidable (sc.IsTrue built) :=
  inferInstanceAs (Decidable (_ ∧ _))

/-- How many do not tell it. -/
def falseScreens (built : List Selection) (screens : List Screen) : ℕ :=
  screens.countP fun sc => decide (¬ sc.IsTrue built)

theorem Screen.isTrue_append {built : List Selection} {sc : Screen}
    (hsc : sc.sniffer < built.length) (more : List Selection) :
    sc.IsTrue (built ++ more) ↔ sc.IsTrue built := by
  unfold Screen.IsTrue
  rw [List.getElem?_append_left hsc]

theorem falseScreens_append {built : List Selection} {screens : List Screen}
    (hscreens : ∀ sc ∈ screens, sc.sniffer < built.length) (more : List Selection) :
    falseScreens (built ++ more) screens = falseScreens built screens := by
  refine List.countP_congr fun sc hsc => ?_
  rw [decide_eq_true_iff, decide_eq_true_iff, Screen.isTrue_append (hscreens sc hsc)]

theorem falseScreens_concat_le (built : List Selection) (screens : List Screen) (sc : Screen) :
    falseScreens built (screens ++ [sc]) ≤ falseScreens built screens + 1 := by
  rw [falseScreens, List.countP_append, List.countP_singleton]
  apply Nat.add_le_add_left
  split <;> decide

theorem falseScreens_concat_true {built : List Selection} {screens : List Screen} {sc : Screen}
    (hsc : sc.IsTrue built) :
    falseScreens built (screens ++ [sc]) = falseScreens built screens := by
  rw [falseScreens, List.countP_append, List.countP_singleton, if_neg]
  · rfl
  · rw [decide_eq_true_iff]
    exact not_not.mpr hsc

theorem Cached.refresh_isFrom {cache : Cached} {n : ℕ} (hcache : cache.IsFrom n) (text : Text) :
    (cache.refresh n text).IsFrom n := by
  unfold Cached.refresh
  split
  · exact hcache
  · exact .inr rfl

/-! ## What the polling thread has counted -/

namespace Attachment

/-- How many sniffers `sniffer_epoch` has counted: the one being put in place is not. -/
def count (l : Attachment) : ℕ :=
  if l.locked then l.built.length - 1 else l.built.length

/-- `link_type` is already that of the sniffer being put in place. -/
def isCounting (l : Attachment) : Bool :=
  match l.poller with
  | .counting _ => true
  | _ => false

theorem count_of_unlocked {l : Attachment} (h : l.locked = false) : l.count = l.built.length := by
  rw [count, h]
  exact if_neg (by decide)

theorem isCounting_of_unlocked {l : Attachment} (h : l.locked = false) : l.isCounting = false := by
  unfold locked at h
  unfold isCounting
  cases hpoller : l.poller with
  | counting sel =>
      rw [hpoller] at h
      cases h
  | _ => rfl

theorem count_le (l : Attachment) : l.count ≤ l.built.length := by
  unfold count
  split
  · exact Nat.sub_le _ _
  · exact Nat.le_refl _

/-- The shared variables, by the sniffers built and counted. -/
structure Counted (l : Attachment) : Prop where
  epoch : l.epoch = UInt64.ofNat l.count
  label : l.isCounting = false → 0 < l.count →
    (l.built[l.count - 1]?).map Selection.shm = some l.linkType
  connected : l.connected = true → 0 < l.count
  sniffer : ∀ n, l.sniffer = some n → n + 1 = l.built.length
  made : l.locked = true ∨ l.poller = .connecting → 0 < l.built.length

/-- A step without the mutex. -/
theorem Counted.rest {l l' : Attachment} (h : Counted l) (hlocked : l.locked = false)
    (hlocked' : l'.locked = false) (hbuilt : l'.built = l.built) (hepoch : l'.epoch = l.epoch)
    (hlabel : l'.linkType = l.linkType) (hconnected : l'.connected = true → 0 < l.built.length)
    (hsniffer : ∀ n, l'.sniffer = some n → l.sniffer = some n)
    (hpoller : l'.poller ≠ .connecting) : Counted l' := by
  have hcount : l'.count = l.count := by
    rw [count_of_unlocked hlocked', count_of_unlocked hlocked, hbuilt]
  have hfull := count_of_unlocked hlocked
  refine ⟨?_, fun _ hpos => ?_, fun hon => ?_, fun n hn => ?_, ?_⟩
  · rw [hepoch, hcount, h.epoch]
  · rw [hcount] at hpos ⊢
    rw [hbuilt, hlabel]
    exact h.label (isCounting_of_unlocked hlocked) hpos
  · rw [hcount, hfull]
    exact hconnected hon
  · rw [hbuilt]
    exact h.sniffer n (hsniffer n hn)
  · rintro (hon | hnext)
    · exact absurd (hlocked'.symm.trans hon) (by decide)
    · exact absurd hnext hpoller

theorem check_poller (opts : CatOptions) (l : Attachment) (entries : List EntrySnapshot) :
    (l.check opts entries).locked = false ∧ (l.check opts entries).poller ≠ .connecting := by
  have hcases : (l.check opts entries).poller = .clearing ∨
      (l.check opts entries).poller = .disconnecting ∨ (l.check opts entries).poller = .atLoop ∨
      ∃ sel, (l.check opts entries).poller = .building sel := by
    unfold Attachment.check
    dsimp only
    split_ifs
    · exact .inl rfl
    · exact .inr (.inl rfl)
    · exact .inr (.inr (.inl rfl))
    · exact .inr (.inr (.inr ⟨_, rfl⟩))
  rcases hcases with h | h | h | ⟨sel, h⟩ <;>
    exact ⟨by rw [locked, h], fun hnext => Poller.noConfusion (h.symm.trans hnext)⟩

theorem Counted.check {l : Attachment} (h : Counted l) (hpoller : l.poller = .polling)
    (entries : List EntrySnapshot) : Counted (l.check opts entries) := by
  have hlocked : l.locked = false := by rw [locked, hpoller]
  obtain ⟨hlocked', hpoller'⟩ := check_poller opts l entries
  refine h.rest hlocked hlocked' rfl rfl rfl (fun hon => ?_) (fun _ hn => hn) hpoller'
  rw [← count_of_unlocked hlocked]
  exact h.connected hon

/-- A step of the polling thread, by what `Stage` knows where it holds the mutex. -/
theorem Counted.pollStep {l l' : Attachment} {running : Bool} (h : Counted l)
    (hstage : l.Stage opts) (hstep : l.pollStep running = some l') : Counted l' := by
  unfold Attachment.pollStep at hstep
  unfold Stage at hstage
  cases hpoller : l.poller with
  | atLoop =>
      simp only [hpoller] at hstep
      cases hstep
      have hlocked : l.locked = false := by rw [locked, hpoller]
      have hon := count_of_unlocked hlocked ▸ h.connected
      cases running with
      | true => exact h.rest hlocked rfl rfl rfl rfl hon (fun _ hn => hn) Poller.noConfusion
      | false => exact h.rest hlocked rfl rfl rfl rfl hon (fun _ hn => hn) Poller.noConfusion
  | polling | finished =>
      simp only [hpoller] at hstep
      cases hstep
  | clearing =>
      simp only [hpoller] at hstep
      cases hstep
      have hlocked : l.locked = false := by rw [locked, hpoller]
      have hon := count_of_unlocked hlocked ▸ h.connected
      refine h.rest hlocked rfl rfl rfl rfl hon (fun _ hn => ?_) Poller.noConfusion
      cases hn
  | disconnecting =>
      simp only [hpoller] at hstep
      cases hstep
      have hlocked : l.locked = false := by rw [locked, hpoller]
      exact h.rest hlocked rfl rfl rfl rfl (fun hon => Bool.noConfusion hon) (fun _ hn => hn)
        Poller.noConfusion
  | notifying =>
      simp only [hpoller] at hstep
      cases hstep
      have hlocked : l.locked = false := by rw [locked, hpoller]
      have hon := count_of_unlocked hlocked ▸ h.connected
      exact h.rest hlocked rfl rfl rfl rfl hon (fun _ hn => hn) Poller.noConfusion
  | connecting =>
      simp only [hpoller] at hstep
      cases hstep
      have hlocked : l.locked = false := by rw [locked, hpoller]
      exact h.rest hlocked rfl rfl rfl rfl (fun _ => h.made (.inr hpoller)) (fun _ hn => hn)
        Poller.noConfusion
  | building sel =>
      simp only [hpoller] at hstep
      cases hstep
      have hlocked : l.locked = false := by rw [locked, hpoller]
      have hfull := count_of_unlocked hlocked
      have hcount : (l.built ++ [sel]).length - 1 = l.count := by
        rw [hfull, List.length_append, List.length_singleton, Nat.add_sub_cancel]
      refine ⟨?_, fun _ hpos => ?_, fun hon => ?_, fun n hn => ?_, fun _ => ?_⟩
      · change l.epoch = UInt64.ofNat ((l.built ++ [sel]).length - 1)
        rw [hcount, h.epoch]
      · change 0 < (l.built ++ [sel]).length - 1 at hpos
        change ((l.built ++ [sel])[(l.built ++ [sel]).length - 1 - 1]?).map Selection.shm = _
        rw [hcount] at hpos ⊢
        rw [List.getElem?_append_left (by omega)]
        exact h.label (isCounting_of_unlocked hlocked) hpos
      · change 0 < (l.built ++ [sel]).length - 1
        rw [hcount]
        exact h.connected hon
      · cases hn
        exact (List.length_append.trans (by rw [List.length_singleton])).symm
      · exact List.length_pos_of_mem (List.mem_append_right _ (List.mem_singleton_self sel))
  | linking sel =>
      simp only [hpoller] at hstep
      cases hstep
      have hlocked : l.locked = true := by rw [locked, hpoller]
      have hcount : l.count = l.built.length - 1 := by
        rw [count, hlocked]
        rfl
      refine ⟨h.epoch.trans (congrArg _ hcount), fun hoff => Bool.noConfusion hoff, fun hon => ?_,
        h.sniffer, fun _ => h.made (.inl hlocked)⟩
      change 0 < l.built.length - 1
      rw [← hcount]
      exact h.connected hon
  | counting sel =>
      simp only [hpoller] at hstep hstage
      cases hstep
      have hlocked : l.locked = true := by rw [locked, hpoller]
      have hpos := h.made (.inl hlocked)
      have hcount : l.count + 1 = l.built.length := by
        rw [count, hlocked, if_pos rfl]
        omega
      obtain ⟨-, -, ⟨before, hbuilt, -⟩, hlabel⟩ := hstage
      refine ⟨?_, fun _ _ => ?_, fun _ => hpos, h.sniffer, fun _ => hpos⟩
      · change l.epoch + 1 = UInt64.ofNat l.built.length
        rw [← hcount, h.epoch, UInt64.ofNat_add]
        rfl
      · change (l.built[l.built.length - 1]?).map Selection.shm = some l.linkType
        rw [hlabel, hbuilt, List.length_append, List.length_singleton, Nat.add_sub_cancel,
          List.getElem?_concat_length]
        rfl

theorem counted_init : Counted CatState.init.link := by
  refine ⟨rfl, fun _ hpos => ?_, fun hon => ?_, fun _ hn => ?_, ?_⟩
  · cases hpos
  · cases hon
  · cases hn
  · rintro (hon | hnext)
    · cases hon
    · cases hnext

/-- What a step of the polling thread does to what the display relies on. -/
structure Grows (l l' : Attachment) : Prop where
  built : ∃ more, l'.built = l.built ++ more
  count : l.count ≤ l'.count
  counting : l.isCounting = true → l'.isCounting = true ∨ l.count < l'.count

theorem grows_check {l : Attachment} (hpoller : l.poller = .polling)
    (entries : List EntrySnapshot) : Grows l (l.check opts entries) := by
  have hlocked : l.locked = false := by rw [locked, hpoller]
  obtain ⟨hlocked', -⟩ := check_poller opts l entries
  refine ⟨⟨[], (List.append_nil _).symm⟩, ?_, fun hcounting => ?_⟩
  · rw [count_of_unlocked hlocked, count_of_unlocked hlocked']
    exact Nat.le_refl _
  · exact absurd ((isCounting_of_unlocked hlocked).symm.trans hcounting) (by decide)

/-- A step without the mutex counts nothing, and does not store `link_type`. -/
theorem kept_of_unlocked {l l' : Attachment} {running : Bool}
    (hstep : l.pollStep running = some l') (hlocked : l.locked = false) :
    (∃ more, l'.built = l.built ++ more) ∧ l'.count = l.count ∧ l'.isCounting = false := by
  have hfull := count_of_unlocked hlocked
  have hnone : ∃ more, l.built = l.built ++ more := ⟨[], (List.append_nil _).symm⟩
  unfold Attachment.pollStep at hstep
  cases hpoller : l.poller with
  | atLoop =>
      simp only [hpoller] at hstep
      cases hstep
      cases running with
      | true => exact ⟨hnone, hfull.symm, rfl⟩
      | false => exact ⟨hnone, hfull.symm, rfl⟩
  | polling | finished =>
      simp only [hpoller] at hstep
      cases hstep
  | clearing | disconnecting | connecting | notifying =>
      simp only [hpoller] at hstep
      cases hstep
      exact ⟨hnone, hfull.symm, rfl⟩
  | building sel =>
      simp only [hpoller] at hstep
      cases hstep
      refine ⟨⟨[sel], rfl⟩, ?_, rfl⟩
      change (l.built ++ [sel]).length - 1 = l.count
      rw [hfull, List.length_append, List.length_singleton, Nat.add_sub_cancel]
  | linking sel | counting sel =>
      rw [locked, hpoller] at hlocked
      cases hlocked

theorem grows_pollStep {l l' : Attachment} {running : Bool} (h : Counted l)
    (hstep : l.pollStep running = some l') : Grows l l' := by
  cases hlocked : l.locked with
  | false =>
      obtain ⟨hbuilt, hcount, -⟩ := kept_of_unlocked hstep hlocked
      refine ⟨hbuilt, Nat.le_of_eq hcount.symm, fun hcounting => ?_⟩
      exact absurd ((isCounting_of_unlocked hlocked).symm.trans hcounting) (by decide)
  | true =>
      have hpos := h.made (.inl hlocked)
      have hcount : l.count = l.built.length - 1 := by
        rw [count, hlocked]
        rfl
      have hnone : ∃ more, l.built = l.built ++ more := ⟨[], (List.append_nil _).symm⟩
      unfold Attachment.pollStep at hstep
      cases hpoller : l.poller with
      | linking sel =>
          simp only [hpoller] at hstep
          cases hstep
          exact ⟨hnone, Nat.le_of_eq hcount, fun _ => .inl rfl⟩
      | counting sel =>
          simp only [hpoller] at hstep
          cases hstep
          have hmore : l.count < l.built.length := by omega
          exact ⟨hnone, Nat.le_of_lt hmore, fun _ => .inr hmore⟩
      | atLoop | polling | clearing | disconnecting | building _ | connecting | notifying
      | finished =>
          rw [locked, hpoller] at hlocked
          cases hlocked

end Attachment

/-! ## What the display holds -/

/-- Between the epoch and the name of a screen. -/
def Display.asks : Display → Bool
  | .fetching | .labelling _ _ _ => true
  | _ => false

def Display.labels : Display → Bool
  | .labelling _ _ _ => true
  | _ => false

/-- The display has seen `e` sniffers counted. -/
structure Seen (l : Attachment) (v : Console) (e : ℕ) : Prop where
  seen : v.seenEpoch = UInt64.ofNat e
  le : e ≤ l.count
  /-- What is cached is from the last one, unless another was counted since. -/
  caches : e = l.count → v.reqCache.IsFrom (e - 1) ∧ v.resCache.IsFrom (e - 1)
  asks : v.display.asks = true → 0 < e
  labelling : ∀ n request response, v.display = .labelling n request response →
    n < l.built.length ∧ (e = l.count → n = e - 1)
  reading : v.display = .reading → 0 < l.count
  screens : ∀ sc ∈ v.screens, sc.sniffer < l.built.length

theorem Seen.grow {l l' : Attachment} {v : Console} {e : ℕ} (h : Seen l v e)
    (hgrows : l.Grows l') : Seen l' v e := by
  obtain ⟨more, hbuilt⟩ := hgrows.built
  have hcount := hgrows.count
  have hlen : l.built.length ≤ l'.built.length := by
    rw [hbuilt, List.length_append]
    exact Nat.le_add_right _ _
  have hle := h.le
  have hsame : e = l'.count → e = l.count := fun heq => by omega
  refine ⟨h.seen, Nat.le_trans hle hcount, fun heq => h.caches (hsame heq), h.asks,
    fun n request response hd => ?_, fun hd => Nat.lt_of_lt_of_le (h.reading hd) hcount,
    fun sc hsc => Nat.lt_of_lt_of_le (h.screens sc hsc) hlen⟩
  obtain ⟨hn, heq⟩ := h.labelling n request response hd
  exact ⟨Nat.lt_of_lt_of_le hn hlen, fun hlast => heq (hsame hlast)⟩

/-- The display goes elsewhere, and no screen is in the making. -/
theorem Seen.go {l : Attachment} {v : Console} {e : ℕ} (h : Seen l v e) {d : Display}
    (hd : d.asks = false) (hreading : d = .reading → 0 < l.count) :
    Seen l { v with display := d } e := by
  refine ⟨h.seen, h.le, h.caches, fun hasks => ?_, fun n request response heq => ?_, hreading,
    h.screens⟩
  · exact absurd (hd.symm.trans hasks) (by decide)
  · cases heq
    cases hd

/-- `seen_epoch` is compared and taken over. -/
theorem Seen.read {l : Attachment} {v : Console} {e : ℕ} (h : Seen l v e)
    (hcounted : l.Counted) (hreading : v.display = .reading) (hsmall : l.count < UInt64.size) :
    Seen l (v.readEpoch l.epoch) l.count ∧ (v.readEpoch l.epoch).screens = v.screens ∧
      (v.readEpoch l.epoch).display = .fetching := by
  have hpos := h.reading hreading
  have hepoch := hcounted.epoch
  unfold Console.readEpoch
  by_cases heq : l.epoch = v.seenEpoch
  · have hsame : e = l.count := by
      have hnats := congrArg UInt64.toNat (h.seen.symm.trans (heq.symm.trans hepoch))
      have hle := h.le
      rwa [UInt64.toNat_ofNat_of_lt' (by omega), UInt64.toNat_ofNat_of_lt' hsmall] at hnats
    rw [if_neg (not_not.mpr heq)]
    subst hsame
    refine ⟨⟨h.seen, Nat.le_refl _, h.caches, fun _ => hpos, fun n request response hd => ?_,
      fun hd => Display.noConfusion hd, h.screens⟩, rfl, rfl⟩
    cases hd
  · rw [if_pos heq]
    refine ⟨⟨hepoch, Nat.le_refl _, fun _ => ⟨.inl rfl, .inl rfl⟩, fun _ => hpos,
      fun n request response hd => ?_, fun hd => Display.noConfusion hd, h.screens⟩, rfl, rfl⟩
    cases hd

/-- The sniffer is asked. -/
theorem Seen.fetch {l : Attachment} {v : Console} {e : ℕ} (h : Seen l v e)
    (hcounted : l.Counted) (hfetching : v.display = .fetching) (hlocked : l.locked = false)
    (request response : Text) : Seen l (v.fetch l.sniffer request response) e := by
  have hpos : 0 < e := h.asks (by rw [hfetching]; rfl)
  unfold Console.fetch
  cases hsniffer : l.sniffer with
  | none => exact h.go rfl (fun hd => Display.noConfusion hd)
  | some n =>
      have hn := hcounted.sniffer n hsniffer
      refine ⟨h.seen, h.le, h.caches, fun _ => hpos, fun m req res hd => ?_,
        fun hd => Display.noConfusion hd, h.screens⟩
      cases hd
      refine ⟨by omega, fun hlast => ?_⟩
      rw [Attachment.count_of_unlocked hlocked] at hlast
      omega

theorem Seen.refreshed (opts : CatOptions) {l : Attachment} {v : Console} {e n : ℕ}
    {request response : Text} (h : Seen l v e)
    (hd : v.display = .labelling n request response) (heq : e = l.count) :
    (v.reqCache.refresh n request).IsFrom n ∧
      (if opts.serOrTopic then v.resCache.refresh n response else v.resCache).IsFrom n := by
  obtain ⟨hreq, hres⟩ := h.caches heq
  rw [← (h.labelling n request response hd).2 heq] at hreq hres
  refine ⟨Cached.refresh_isFrom hreq request, ?_⟩
  split
  · exact Cached.refresh_isFrom hres response
  · exact hres

/-- The screen is drawn. -/
theorem Seen.draw {l : Attachment} {v : Console} {e n : ℕ} {request response : Text}
    (h : Seen l v e) (hd : v.display = .labelling n request response) :
    Seen l (v.draw opts l.linkType n request response) e := by
  obtain ⟨hn, hlast⟩ := h.labelling n request response hd
  refine ⟨h.seen, h.le, fun heq => ?_, fun hasks => Bool.noConfusion hasks,
    fun m req res hd => Display.noConfusion hd, fun hd => Display.noConfusion hd, ?_⟩
  · rw [← hlast heq]
    exact h.refreshed opts hd heq
  · intro sc hsc
    rcases List.mem_append.mp hsc with hold | hnew
    · exact h.screens sc hold
    · rw [List.mem_singleton.mp hnew]
      exact hn

/-- Nothing was counted since the epoch was read, and `link_type` not yet stored anew. -/
theorem Seen.isTrue (opts : CatOptions) {l : Attachment} {v : Console} {e n : ℕ}
    {request response : Text} (h : Seen l v e) (hcounted : l.Counted)
    (hd : v.display = .labelling n request response) (heq : e = l.count)
    (hcounting : l.isCounting = false) :
    Screen.IsTrue l.built ⟨n, l.linkType, v.reqCache.refresh n request,
      if opts.serOrTopic then v.resCache.refresh n response else v.resCache⟩ := by
  have hpos : 0 < e := h.asks (by rw [hd]; rfl)
  refine ⟨?_, h.refreshed opts hd heq⟩
  have hlabel := hcounted.label hcounting (heq ▸ hpos)
  rwa [← heq, ← (h.labelling n request response hd).2 heq] at hlabel

/-! ## The charge -/

/-- How many screens may be false by now: two for each sniffer seen counted but the last, and one
or two for the last where its successor is under way. -/
def allowance (l : Attachment) (v : Console) (e : ℕ) : ℕ :=
  if e < l.count then if v.display.asks then 2 * e - 1 else 2 * e
  else if l.isCounting && !v.display.labels then 2 * e - 1
  else 2 * e - 2

theorem asks_of_labels {d : Display} (h : d.labels = true) : d.asks = true := by
  cases d with
  | labelling _ _ _ => rfl
  | _ => cases h

theorem allowance_grow {l l' : Attachment} {v : Console} {e : ℕ} (hle : e ≤ l.count)
    (hgrows : l.Grows l') : allowance l v e ≤ allowance l' v e := by
  have hcount := hgrows.count
  have hcounting := hgrows.counting
  unfold allowance
  by_cases hlt : e < l.count
  · rw [if_pos hlt, if_pos (Nat.lt_of_lt_of_le hlt hcount)]
  · rw [if_neg hlt]
    by_cases hlt' : e < l'.count
    · rw [if_pos hlt']
      split_ifs <;> omega
    · rw [if_neg hlt']
      cases hc : l.isCounting with
      | false =>
          rw [Bool.false_and, if_neg (by decide)]
          split_ifs <;> omega
      | true =>
          rcases hcounting hc with hnext | hmore
          · rw [hnext]
          · omega

/-- Where no screen is in the making, it does not matter where the display is. -/
theorem allowance_go {l : Attachment} {v : Console} {e : ℕ} {d : Display}
    (hv : v.display.asks = false) (hd : d.asks = false) :
    allowance l { v with display := d } e = allowance l v e := by
  have hlabels : ∀ d : Display, d.asks = false → d.labels = false := by
    intro d hd
    by_contra hon
    exact absurd (hd.symm.trans (asks_of_labels (Bool.eq_true_of_not_eq_false hon))) (by decide)
  unfold allowance
  dsimp only
  rw [hv, hd, hlabels _ hv, hlabels _ hd]

/-- What the display has seen, and what it was charged with. -/
structure Charged (l : Attachment) (v : Console) (e : ℕ) : Prop where
  seen : Seen l v e
  few : falseScreens l.built v.screens ≤ allowance l v e

theorem Charged.grow {l l' : Attachment} {v : Console} {e : ℕ} (h : Charged l v e)
    (hgrows : l.Grows l') : Charged l' v e := by
  obtain ⟨more, hbuilt⟩ := hgrows.built
  refine ⟨h.seen.grow hgrows, ?_⟩
  rw [hbuilt, falseScreens_append h.seen.screens]
  exact Nat.le_trans h.few (allowance_grow h.seen.le hgrows)

theorem Charged.go {l : Attachment} {v : Console} {e : ℕ} (h : Charged l v e) {d : Display}
    (hv : v.display.asks = false) (hd : d.asks = false) (hreading : d = .reading → 0 < l.count) :
    Charged l { v with display := d } e :=
  ⟨h.seen.go hd hreading, (allowance_go hv hd).symm ▸ h.few⟩

theorem Charged.notified {l : Attachment} {v : Console} {e : ℕ} (h : Charged l v e) :
    Charged l v.notified e := by
  unfold Console.notified
  split
  · exact h.go (by rw [‹v.display = .asleep›]; rfl) rfl (fun hd => Display.noConfusion hd)
  · exact h

theorem Charged.read {l : Attachment} {v : Console} {e : ℕ} (h : Charged l v e)
    (hcounted : l.Counted) (hreading : v.display = .reading) (hsmall : l.count < UInt64.size) :
    Charged l (v.readEpoch l.epoch) l.count := by
  obtain ⟨hseen, hscreens, hdisplay⟩ := h.seen.read hcounted hreading hsmall
  refine ⟨hseen, ?_⟩
  have hfew := h.few
  have hle := h.seen.le
  unfold allowance at hfew ⊢
  rw [hreading] at hfew
  rw [hscreens, hdisplay, if_neg (Nat.lt_irrefl _)]
  simp only [Display.asks, Display.labels, Bool.not_false, Bool.and_true] at hfew ⊢
  split_ifs at hfew ⊢ <;> omega

theorem Charged.fetch {l : Attachment} {v : Console} {e : ℕ} (h : Charged l v e)
    (hcounted : l.Counted) (hfetching : v.display = .fetching) (hlocked : l.locked = false)
    (request response : Text) : Charged l (v.fetch l.sniffer request response) e := by
  refine ⟨h.seen.fetch hcounted hfetching hlocked request response, ?_⟩
  have hcounting := Attachment.isCounting_of_unlocked hlocked
  have hfew := h.few
  unfold allowance at hfew ⊢
  rw [hfetching, hcounting] at hfew
  rw [hcounting]
  unfold Console.fetch
  cases l.sniffer with
  | none =>
      simp only [Display.asks, Bool.false_and] at hfew ⊢
      split_ifs at hfew ⊢ <;> omega
  | some n => exact hfew

/-- A false screen is drawn only where a successor is under way. -/
theorem Charged.draw {l : Attachment} {v : Console} {e n : ℕ} {request response : Text}
    (h : Charged l v e) (hcounted : l.Counted) (hd : v.display = .labelling n request response) :
    Charged l (v.draw opts l.linkType n request response) e := by
  refine ⟨h.seen.draw hd, ?_⟩
  have hpos : 0 < e := h.seen.asks (by rw [hd]; rfl)
  have hle := h.seen.le
  have hfew := h.few
  have hmore := falseScreens_concat_le l.built v.screens ⟨n, l.linkType,
    v.reqCache.refresh n request,
    if opts.serOrTopic then v.resCache.refresh n response else v.resCache⟩
  unfold allowance at hfew ⊢
  simp only [hd, Display.asks, Display.labels, Bool.not_true, Bool.and_false, if_true,
    Bool.false_eq_true, if_false] at hfew
  simp only [Console.draw, Display.asks, Display.labels, Bool.not_false, Bool.and_true,
    Bool.false_eq_true, if_false]
  by_cases hlt : e < l.count
  · rw [if_pos hlt] at hfew ⊢
    omega
  · rw [if_neg hlt] at hfew ⊢
    cases hcounting : l.isCounting with
    | true =>
        rw [if_pos rfl]
        omega
    | false =>
        rw [falseScreens_concat_true (h.seen.isTrue opts hcounted hd (by omega) hcounting)]
        exact hfew

/-- The steps of the display that read nothing of a screen. -/
theorem console_cases {v v' : Console} {l : Attachment} {running : Bool}
    (hstep : v.step opts running l = some v') :
    (v.display = .reading ∧ v' = v.readEpoch l.epoch) ∨
      (∃ n request response, v.display = .labelling n request response ∧
        v' = v.draw opts l.linkType n request response) ∨
      ∃ d, v' = { v with display := d } ∧ v.display.asks = false ∧ d.asks = false ∧
        (d = .reading → l.connected = true) := by
  unfold Console.step at hstep
  cases hd : v.display with
  | reading =>
      simp only [hd] at hstep
      cases hstep
      exact .inl ⟨rfl, rfl⟩
  | labelling n request response =>
      simp only [hd] at hstep
      cases hstep
      exact .inr (.inl ⟨n, request, response, rfl, rfl⟩)
  | asleep | fetching | finished =>
      simp only [hd] at hstep
      cases hstep
  | blocking =>
      simp only [hd] at hstep
      cases hstep
      exact .inr (.inr ⟨_, rfl, rfl, rfl, fun h => Display.noConfusion h⟩)
  | inLoopState =>
      simp only [hd] at hstep
      cases hstep
      refine .inr (.inr ⟨_, rfl, rfl, ?_, fun h => ?_⟩)
      · split <;> rfl
      · split at h
        · assumption
        · cases h
  | atLoop | choosing | testing | testingRunning | inLoop =>
      simp only [hd] at hstep
      cases hstep
      refine .inr (.inr ⟨_, rfl, rfl, ?_, fun h => ?_⟩)
      · split <;> rfl
      · split at h <;> cases h

theorem grows_step {s t : CatState} {a : CatAction} (hcounted : s.link.Counted)
    (hstep : catStep opts s a = some t) : s.link.Grows t.link := by
  rcases link_cases hstep with heq | ⟨entries, hpoller, heq⟩ | ⟨-, hpoll⟩
  · rw [heq]
    exact ⟨⟨[], (List.append_nil _).symm⟩, Nat.le_refl _, fun hcounting => .inl hcounting⟩
  · rw [heq]
    exact Attachment.grows_check hpoller entries
  · exact Attachment.grows_pollStep hcounted hpoll

/-- What a step does to what the display writes. -/
theorem view_cases {s t : CatState} {a : CatAction} (hstep : catStep opts s a = some t) :
    (t.view = s.view ∨ t.view = s.view.notified) ∨
      (∃ request response, s.view.display = .fetching ∧ s.link.locked = false ∧
        t.link = s.link ∧ t.view = s.view.fetch s.link.sniffer request response) ∨
      (t.link = s.link ∧ s.view.step opts s.running s.link = some t.view) := by
  cases a with
  | snapshot entries =>
      obtain ⟨-, heq⟩ := Option.ite_none_right_eq_some.mp hstep
      cases heq
      exact .inl (.inl rfl)
  | poll =>
      cases hpoll : s.link.pollStep s.running with
      | none =>
          simp only [catStep, hpoll] at hstep
          cases hstep
      | some link =>
          simp only [catStep, hpoll] at hstep
          cases hstep
          dsimp only
          split
          · exact .inl (.inr rfl)
          · exact .inl (.inl rfl)
  | fetch request response =>
      obtain ⟨⟨hfetching, hlocked⟩, heq⟩ := Option.ite_none_right_eq_some.mp hstep
      cases heq
      exact .inr (.inl ⟨request, response, hfetching, hlocked, rfl, rfl⟩)
  | display =>
      cases hview : s.view.step opts s.running s.link with
      | none =>
          simp only [catStep, hview] at hstep
          cases hstep
      | some view =>
          simp only [catStep, hview] at hstep
          cases hstep
          exact .inr (.inr ⟨rfl, rfl⟩)
  | spurious =>
      obtain ⟨-, heq⟩ := Option.ite_none_right_eq_some.mp hstep
      cases heq
      exact .inl (.inr rfl)
  | interrupt =>
      cases hstep
      exact .inl (.inl rfl)
  | handlerNotify =>
      obtain ⟨-, heq⟩ := Option.ite_none_left_eq_some.mp hstep
      cases heq
      exact .inl (.inr rfl)

theorem charged_step {s t : CatState} {a : CatAction} {e : ℕ} (hcounted : s.link.Counted)
    (h : Charged s.link s.view e) (hsmall : s.link.built.length < UInt64.size)
    (hstep : catStep opts s a = some t) : ∃ e', Charged t.link t.view e' := by
  have hgrown := h.grow (grows_step hcounted hstep)
  rcases view_cases hstep with (hview | hview) |
    ⟨request, response, hfetching, hlocked, hlink, hview⟩ | ⟨hlink, hview⟩
  · rw [hview]
    exact ⟨e, hgrown⟩
  · rw [hview]
    exact ⟨e, hgrown.notified⟩
  · rw [hlink, hview]
    exact ⟨e, h.fetch hcounted hfetching hlocked request response⟩
  · rw [hlink]
    have hlt := Nat.lt_of_le_of_lt s.link.count_le hsmall
    rcases console_cases hview with ⟨hd, heq⟩ | ⟨n, req, res, hd, heq⟩ | ⟨d, heq, hv, hd, hon⟩
    · rw [heq]
      exact ⟨s.link.count, h.read hcounted hd hlt⟩
    · rw [heq]
      exact ⟨e, h.draw hcounted hd⟩
    · rw [heq]
      exact ⟨e, h.go hv hd fun hr => hcounted.connected (hon hr)⟩

theorem counted_step {s t : CatState} {a : CatAction}
    (h : s.link.Stage opts ∧ s.link.Counted) (hstep : catStep opts s a = some t) :
    t.link.Stage opts ∧ t.link.Counted := by
  refine ⟨stage_step h.1 hstep, ?_⟩
  rcases link_cases hstep with heq | ⟨entries, hpoller, heq⟩ | ⟨-, hpoll⟩
  · exact heq ▸ h.2
  · exact heq ▸ h.2.check hpoller entries
  · exact h.2.pollStep h.1 hpoll

theorem length_built_le {s t : CatState} {a : CatAction} (hcounted : s.link.Counted)
    (hstep : catStep opts s a = some t) : s.link.built.length ≤ t.link.built.length := by
  obtain ⟨more, hbuilt⟩ := (grows_step hcounted hstep).built
  rw [hbuilt, List.length_append]
  exact Nat.le_add_right _ _

theorem seen_init : Seen CatState.init.link CatState.init.view 0 :=
  ⟨rfl, Nat.le_refl _, fun _ => ⟨.inl rfl, .inl rfl⟩, fun hasks => Bool.noConfusion hasks,
    fun _ _ _ hd => Display.noConfusion hd, fun hd => Display.noConfusion hd,
    fun _ hsc => absurd hsc List.not_mem_nil⟩

/-- What each state of a run has been charged with, as long as the counter does not wrap. -/
def CatState.Charge (opts : CatOptions) (s : CatState) : Prop :=
  (s.link.Stage opts ∧ s.link.Counted) ∧
    (s.link.built.length < UInt64.size → ∃ e, Charged s.link s.view e)

theorem charge_step {s t : CatState} {a : CatAction} (h : s.Charge opts)
    (hstep : catStep opts s a = some t) : t.Charge opts := by
  refine ⟨counted_step h.1 hstep, fun hsmall => ?_⟩
  have hsmall' := Nat.lt_of_le_of_lt (length_built_le h.1.2 hstep) hsmall
  obtain ⟨e, he⟩ := h.2 hsmall'
  exact charged_step h.1.2 he hsmall' hstep

theorem allowance_le {l : Attachment} {v : Console} {e : ℕ} (hle : e ≤ l.count) :
    allowance l v e ≤ 2 * (l.built.length - 1) := by
  have hcount := l.count_le
  unfold allowance
  split_ifs with hlt hasks hcounting
  · omega
  · omega
  · have hlocked : l.locked = true := by
      by_contra hoff
      rw [Attachment.isCounting_of_unlocked (Bool.eq_false_iff.mpr hoff)] at hcounting
      cases hcounting
    have hone : l.count = l.built.length - 1 := by
      rw [Attachment.count, hlocked]
      rfl
    omega
  · omega

/-- **Two screens for a rebuild.**  In every run, with the two threads interleaved in any way, at
most two screens for each sniffer built but the first show a name or a text that is not that of
the sniffer which was asked. -/
theorem false_screens_le {actions : List CatAction} {s : CatState}
    (hrun : (catMachine opts).run actions = some s)
    (hsmall : s.link.built.length < UInt64.size) :
    falseScreens s.link.built s.view.screens ≤ 2 * (s.link.built.length - 1) := by
  have hinit : CatState.init.Charge opts :=
    ⟨⟨stage_init, Attachment.counted_init⟩, fun _ => ⟨0, seen_init, Nat.le_refl _⟩⟩
  have hinv : s.Charge opts :=
    Machine.invariant (M := catMachine opts) hinit (fun _ _ _ h hstep => charge_step h hstep) hrun
  obtain ⟨e, he⟩ := hinv.2 hsmall
  exact Nat.le_trans he.few (allowance_le he.seen.le)

/-- The sniffer is replaced while the second screen is in the making, and counted while the third
is. -/
def hastyScreens : List CatAction :=
  rebuild [entryOf 0 5 .socketPub] ++
    [.display, .display, .display, .display, .display, .fetch [1] [], .display, .display, .display,
      .display, .fetch [] [], .poll, .snapshot [entryOf 1 3 .shmPub], .poll, .poll, .display,
      .display, .display, .display, .poll, .fetch [] [], .display]

/-- Both show the text of the first sniffer under the name of the second. -/
theorem false_screens_le_hastyScreens :
    ∃ s, (catMachine anyTopic).run hastyScreens = some s ∧ s.link.built.length = 2 ∧
      falseScreens s.link.built s.view.screens = 2 ∧
      falseScreens s.link.built s.view.screens ≤ 2 * (s.link.built.length - 1) := by
  have hany : ((catMachine anyTopic).run hastyScreens).any (fun s => decide
      (s.link.built.length = 2 ∧ falseScreens s.link.built s.view.screens = 2)) = true := by
    decide +kernel
  obtain ⟨s, hrun, hlen, htwo⟩ := Machine.exists_of_any hany
  have hsmall : s.link.built.length < UInt64.size := by
    rw [hlen]
    decide
  exact ⟨s, hrun, hlen, htwo, false_screens_le hrun hsmall⟩

/-! ## Screens made without a rebuild -/

/-- The polling thread does not store `link_type` and the epoch while a screen is in the making. -/
def Undisturbed (s : CatState) (a : CatAction) : Prop :=
  a = .poll → s.link.locked = true → s.view.display.asks = false

instance (s : CatState) (a : CatAction) : Decidable (Undisturbed s a) :=
  inferInstanceAs (Decidable (_ → _ → _))

/-- Every screen is true, and one in the making will be. -/
structure Clean (l : Attachment) (v : Console) (e : ℕ) : Prop where
  seen : Seen l v e
  screens : ∀ sc ∈ v.screens, sc.IsTrue l.built
  current : v.display.asks = true → e = l.count
  labels : v.display.labels = true → l.isCounting = false

theorem Clean.grow {l l' : Attachment} {v : Console} {e : ℕ} (h : Clean l v e)
    (hgrows : l.Grows l')
    (hasks : v.display.asks = true →
      l'.count = l.count ∧ (l.isCounting = false → l'.isCounting = false)) : Clean l' v e := by
  obtain ⟨more, hbuilt⟩ := hgrows.built
  refine ⟨h.seen.grow hgrows, fun sc hsc => ?_, fun hon => ?_, fun hon => ?_⟩
  · rw [hbuilt, Screen.isTrue_append (h.seen.screens sc hsc)]
    exact h.screens sc hsc
  · rw [(hasks hon).1]
    exact h.current hon
  · exact (hasks (asks_of_labels hon)).2 (h.labels hon)

theorem Clean.go {l : Attachment} {v : Console} {e : ℕ} (h : Clean l v e) {d : Display}
    (hd : d.asks = false) (hreading : d = .reading → 0 < l.count) :
    Clean l { v with display := d } e := by
  refine ⟨h.seen.go hd hreading, h.screens, fun hon => ?_, fun hon => ?_⟩
  · exact absurd (hd.symm.trans hon) (by decide)
  · exact absurd (hd.symm.trans (asks_of_labels hon)) (by decide)

theorem Clean.notified {l : Attachment} {v : Console} {e : ℕ} (h : Clean l v e) :
    Clean l v.notified e := by
  unfold Console.notified
  split
  · exact h.go rfl (fun hd => Display.noConfusion hd)
  · exact h

theorem Clean.fetch {l : Attachment} {v : Console} {e : ℕ} (h : Clean l v e)
    (hcounted : l.Counted) (hfetching : v.display = .fetching) (hlocked : l.locked = false)
    (request response : Text) : Clean l (v.fetch l.sniffer request response) e := by
  have hcurrent := h.current (by rw [hfetching]; rfl)
  refine ⟨h.seen.fetch hcounted hfetching hlocked request response, ?_, fun _ => hcurrent,
    fun _ => Attachment.isCounting_of_unlocked hlocked⟩
  unfold Console.fetch
  split <;> exact h.screens

theorem Clean.display {l : Attachment} {v v' : Console} {e : ℕ} {running : Bool}
    (h : Clean l v e) (hcounted : l.Counted) (hsmall : l.count < UInt64.size)
    (hstep : v.step opts running l = some v') : ∃ e', Clean l v' e' := by
  rcases console_cases hstep with ⟨hd, heq⟩ | ⟨n, request, response, hd, heq⟩ |
    ⟨d, heq, -, hd, hon⟩
  · obtain ⟨hseen, hscreens, hdisplay⟩ := h.seen.read hcounted hd hsmall
    rw [heq]
    refine ⟨l.count, hseen, hscreens ▸ h.screens, fun _ => rfl, fun hlabels => ?_⟩
    rw [hdisplay] at hlabels
    cases hlabels
  · rw [heq]
    refine ⟨e, h.seen.draw hd, fun sc hsc => ?_, fun hon => Bool.noConfusion hon,
      fun hon => Bool.noConfusion hon⟩
    rcases List.mem_append.mp hsc with hold | hnew
    · exact h.screens sc hold
    · rw [List.mem_singleton.mp hnew]
      have hasks : v.display.asks = true := by rw [hd]; rfl
      have hlabels : v.display.labels = true := by rw [hd]; rfl
      exact h.seen.isTrue opts hcounted hd (h.current hasks) (h.labels hlabels)
  · rw [heq]
    exact ⟨e, h.go hd fun hr => hcounted.connected (hon hr)⟩

/-- Nothing is counted, and `link_type` not stored, while a screen is in the making. -/
theorem Undisturbed.link {s t : CatState} {a : CatAction} (hguard : Undisturbed s a)
    (hstep : catStep opts s a = some t) (hasks : s.view.display.asks = true) :
    t.link.count = s.link.count ∧ (s.link.isCounting = false → t.link.isCounting = false) := by
  rcases link_cases hstep with heq | ⟨entries, hpoller, heq⟩ | ⟨rfl, hpoll⟩
  · rw [heq]
    exact ⟨rfl, id⟩
  · have hlocked : s.link.locked = false := by rw [Attachment.locked, hpoller]
    obtain ⟨hlocked', -⟩ := Attachment.check_poller opts s.link entries
    rw [heq]
    refine ⟨?_, fun _ => Attachment.isCounting_of_unlocked hlocked'⟩
    rw [Attachment.count_of_unlocked hlocked, Attachment.count_of_unlocked hlocked']
    rfl
  · have hlocked : s.link.locked = false := by
      by_contra hon
      have hoff := hguard rfl (Bool.eq_true_of_not_eq_false hon)
      exact absurd (hoff.symm.trans hasks) (by decide)
    obtain ⟨-, hcount, hcounting⟩ := Attachment.kept_of_unlocked hpoll hlocked
    exact ⟨hcount, fun _ => hcounting⟩

theorem clean_step {s t : CatState} {a : CatAction} {e : ℕ} (hcounted : s.link.Counted)
    (h : Clean s.link s.view e) (hsmall : s.link.built.length < UInt64.size)
    (hguard : Undisturbed s a) (hstep : catStep opts s a = some t) :
    ∃ e', Clean t.link t.view e' := by
  have hgrown := h.grow (grows_step hcounted hstep) (hguard.link hstep)
  rcases view_cases hstep with (hview | hview) |
    ⟨request, response, hfetching, hlocked, hlink, hview⟩ | ⟨hlink, hview⟩
  · rw [hview]
    exact ⟨e, hgrown⟩
  · rw [hview]
    exact ⟨e, hgrown.notified⟩
  · rw [hlink, hview]
    exact ⟨e, h.fetch hcounted hfetching hlocked request response⟩
  · rw [hlink]
    exact h.display hcounted (Nat.lt_of_le_of_lt s.link.count_le hsmall) hview

def CatState.Truthful (opts : CatOptions) (s : CatState) : Prop :=
  (s.link.Stage opts ∧ s.link.Counted) ∧
    (s.link.built.length < UInt64.size → ∃ e, Clean s.link s.view e)

theorem truthful_step {s t : CatState} {a : CatAction} (h : s.Truthful opts)
    (hguard : Undisturbed s a) (hstep : catStep opts s a = some t) : t.Truthful opts := by
  refine ⟨counted_step h.1 hstep, fun hsmall => ?_⟩
  have hsmall' := Nat.lt_of_le_of_lt (length_built_le h.1.2 hstep) hsmall
  obtain ⟨e, he⟩ := h.2 hsmall'
  exact clean_step h.1.2 he hsmall' hguard hstep

/-- **True screens.**  In a run in which no rebuild stores the name or the epoch between the first
and the last read of a screen, every screen has the name of the sniffer that was asked, and each
text on it is from this sniffer. -/
theorem screens_true {actions : List CatAction} {s : CatState}
    (hguarded : (catMachine opts).Guarded Undisturbed actions)
    (hrun : (catMachine opts).run actions = some s)
    (hsmall : s.link.built.length < UInt64.size) :
    ∀ sc ∈ s.view.screens, sc.IsTrue s.link.built := by
  have hinit : CatState.init.Truthful opts := by
    refine ⟨⟨stage_init, Attachment.counted_init⟩, fun _ => ⟨0, seen_init, fun _ hsc => ?_,
      fun hon => Bool.noConfusion hon, fun hon => Bool.noConfusion hon⟩⟩
    exact absurd hsc List.not_mem_nil
  have hinv : s.Truthful opts :=
    Machine.invariant_of_guarded (M := catMachine opts) hinit
      (fun _ _ _ h hguard hstep => truthful_step h hguard hstep) hguarded hrun
  obtain ⟨e, he⟩ := hinv.2 hsmall
  exact he.screens

/-- The same, with the sniffer replaced between two screens. -/
def calmScreens : List CatAction :=
  rebuild [entryOf 0 5 .socketPub] ++
    [.display, .display, .display, .display, .display, .fetch [1] [], .display] ++
    rebuild [entryOf 1 3 .shmPub] ++ [.display, .display, .display, .fetch [] [], .display]

theorem screens_true_calmScreens :
    ∃ s, (catMachine anyTopic).run calmScreens = some s ∧ s.view.screens.length = 2 ∧
      ∀ sc ∈ s.view.screens, sc.IsTrue s.link.built := by
  have hguarded : (catMachine anyTopic).Guarded Undisturbed calmScreens := by decide +kernel
  have hany : ((catMachine anyTopic).run calmScreens).any (fun s => decide
      (s.link.built.length = 2 ∧ s.view.screens.length = 2)) = true := by
    decide +kernel
  obtain ⟨s, hrun, hlen, htwo⟩ := Machine.exists_of_any hany
  have hsmall : s.link.built.length < UInt64.size := by
    rw [hlen]
    decide
  exact ⟨s, hrun, htwo, screens_true hguarded hrun hsmall⟩

end DzIpc.TopicCat
