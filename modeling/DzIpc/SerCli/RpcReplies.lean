import DzIpc.SerCli.Rpc

/-!
# Whose reply a call shows

* `callback_once`: the callback runs at most once for a call, on that call's request.
* `own_reply_iff`: the runs in which every call that returns true shows its own reply.
* `own_reply_iff_expired`: without losses, ring calls do so just until the first one times out.
-/

namespace DzIpc.SerCli.Rpc

variable {Req Res : Type}

/-! ## What the objects hold -/

/-- The callback has produced the reply. -/
def State.Replied (s : State Req Res) (r : Reply Res) : Prop :=
  ∃ e ∈ s.served, e.reply = r

/-- The object holds the reply as its response or as its sample. -/
def Service.Holds (o : Service Res) (r : Reply Res) : Prop :=
  o.response = some r ∨ o.sample = some r

theorem Service.holds_of_seen {o : Service Res} {r : Reply Res} (h : o.seen = some r) :
    o.Holds r := by
  unfold Service.seen at h
  split at h
  next r' hsample => exact Or.inr (hsample.trans h)
  next => exact Or.inl h

theorem Service.holds_take {o : Service Res} {r : Response Res} {r' : Reply Res}
    (h : (o.take r).Holds r') : r' = r.reply ∨ o.Holds r' := by
  unfold Service.take at h
  split at h
  · rcases h with hresponse | hsample
    · exact Or.inr (Or.inl hresponse)
    · exact Or.inl (Option.some.inj hsample).symm
  · rcases h with hresponse | hsample
    · exact Or.inl (Option.some.inj hresponse).symm
    · exact Or.inr (Or.inr hsample)

/-- An object without a sample shows the response it has taken. -/
theorem Service.seen_take {o : Service Res} (hclear : o.sample = none) (r : Response Res) :
    (o.take r).seen = some r.reply := by
  unfold Service.take
  split
  · rfl
  · simp [Service.seen, hclear]

/-- How many calls have ended. -/
def State.ended (s : State Req Res) : ℕ :=
  match s.client with
  | .idle => s.made.length
  | .ring k _ => k
  | .fast k _ => k

/-- Every reply is one the callback has produced; a reply queue holds that of its own call, and
what the objects hold are replies to calls that have ended. -/
structure Held (s : State Req Res) : Prop where
  responses : ∀ r ∈ s.responses, s.Replied r.reply
  mail : ∀ k r, s.mail k = some r → r.call = k ∧ s.Replied r
  objs : ∀ obj r, (s.objs obj).Holds r → r.call < s.ended ∧ s.Replied r
  clear : ∀ k obj, s.client = .ring k obj → (s.objs obj).sample = none
  answers : ∀ a ∈ s.answers, ∃ r, a.seen = some r ∧ r.call ≤ a.call ∧ s.Replied r

theorem Held.frame {s t : State Req Res} (h : Held s)
    (hresponses : ∀ r ∈ t.responses, r ∈ s.responses) (hmail : t.mail = s.mail)
    (hobjs : t.objs = s.objs) (hended : s.ended ≤ t.ended)
    (hclear : ∀ k obj, t.client = .ring k obj → s.client = .ring k obj)
    (hserved : t.served = s.served) (hanswers : t.answers = s.answers) : Held t := by
  have hreplied : ∀ r, s.Replied r → t.Replied r := by
    intro r hr
    rwa [State.Replied, hserved]
  refine ⟨fun r hr => hreplied _ (h.responses r (hresponses r hr)), fun k r hr => ?_,
    fun obj r hr => ?_, fun k obj hk => ?_, fun a ha => ?_⟩
  · rw [hmail] at hr
    exact ⟨(h.mail k r hr).1, hreplied r (h.mail k r hr).2⟩
  · rw [hobjs] at hr
    obtain ⟨hlt, hr⟩ := h.objs obj r hr
    exact ⟨lt_of_lt_of_le hlt hended, hreplied r hr⟩
  · rw [hobjs]
    exact h.clear k obj (hclear k obj hk)
  · rw [hanswers] at ha
    obtain ⟨r, hseen, hle, hr⟩ := h.answers a ha
    exact ⟨r, hseen, hle, hreplied r hr⟩

/-- A call returns true with replies of calls up to its own in its object. -/
theorem Held.return {s : State Req Res} (h : Held s) {k obj : ℕ} {o : Service Res}
    (hk : k + 1 = s.made.length) (hended : s.ended = k)
    (ho : ∀ r, o.Holds r → r.call ≤ k ∧ s.Replied r) {r : Reply Res} (hseen : o.seen = some r) :
    Held (s.return k obj o) := by
  refine ⟨h.responses, h.mail, fun obj' r' hr' => ?_, fun _ _ hc => (by cases hc), fun a ha => ?_⟩
  · change r'.call < s.made.length ∧ s.Replied r'
    change (Function.update s.objs obj o obj').Holds r' at hr'
    by_cases hobj : obj' = obj
    · rw [hobj, Function.update_self] at hr'
      obtain ⟨hle, hr'⟩ := ho r' hr'
      exact ⟨by omega, hr'⟩
    · rw [Function.update_of_ne hobj] at hr'
      obtain ⟨hlt, hr'⟩ := h.objs obj' r' hr'
      exact ⟨by omega, hr'⟩
  · rcases List.mem_append.mp ha with hold | hnew
    · exact h.answers a hold
    · rw [List.mem_singleton.mp hnew]
      obtain ⟨hle, hr⟩ := ho r (Service.holds_of_seen hseen)
      exact ⟨r, hseen, hle, hr⟩

/-- The callback's answers stay, and the reply it has just produced goes where `t` says. -/
theorem Held.answer {s t : State Req Res} (h : Held s) {q : Request Req} {body : Res}
    (hserved : t.served = s.served ++ [⟨q, body⟩])
    (hresponses : ∀ r ∈ t.responses, r ∈ s.responses ∨ r.reply = ⟨q.call, body⟩)
    (hmail : ∀ k r, t.mail k = some r → s.mail k = some r ∨ (k = q.call ∧ r = ⟨q.call, body⟩))
    (hobjs : t.objs = s.objs) (hclient : t.client = s.client) (hmade : t.made = s.made)
    (hanswers : t.answers = s.answers) : Held t := by
  have hreplied : ∀ r, s.Replied r → t.Replied r := by
    rintro r ⟨e, he, her⟩
    exact ⟨e, hserved ▸ List.mem_append_left _ he, her⟩
  have hlast : t.Replied ⟨q.call, body⟩ :=
    ⟨⟨q, body⟩, hserved ▸ List.mem_append_right _ (List.mem_singleton.mpr rfl), rfl⟩
  have hended : t.ended = s.ended := by
    simp only [State.ended, hclient, hmade]
  refine ⟨fun r hr => ?_, fun k r hr => ?_, fun obj r hr => ?_, fun k obj hk => ?_, fun a ha => ?_⟩
  · rcases hresponses r hr with hold | hnew
    · exact hreplied _ (h.responses r hold)
    · rw [hnew]
      exact hlast
  · rcases hmail k r hr with hold | ⟨rfl, rfl⟩
    · exact ⟨(h.mail k r hold).1, hreplied r (h.mail k r hold).2⟩
    · exact ⟨rfl, hlast⟩
  · rw [hobjs] at hr
    rw [hended]
    exact ⟨(h.objs obj r hr).1, hreplied r (h.objs obj r hr).2⟩
  · rw [hobjs]
    exact h.clear k obj (hclient ▸ hk)
  · rw [hanswers] at ha
    obtain ⟨r, hseen, hle, hr⟩ := h.answers a ha
    exact ⟨r, hseen, hle, hreplied r hr⟩

theorem Held.step {s t : State Req Res} {a : Action Req Res} (h : Held s) (hord : Ordered s)
    (hstep : step s a = some t) : Held t := by
  cases step_cases hstep with
  | @call obj msgId body _ _ _ hc =>
      have hended : s.ended = s.made.length := by simp only [State.ended, hc]
      apply sendRequest_cases
      case hfast =>
        intro gate
        exact h.frame (fun _ hr => hr) rfl rfl hended.le (fun _ _ hk => by cases hk) rfl rfl
      case hring =>
        intro gate
        refine ⟨h.responses, h.mail, fun obj' r hr => ?_, fun k obj' hk => ?_, h.answers⟩
        · change (Function.update s.objs obj { s.objs obj with sample := none } obj').Holds r at hr
          change r.call < s.made.length ∧ s.Replied r
          rw [← hended]
          by_cases hobj : obj' = obj
          · rw [hobj, Function.update_self] at hr
            rcases hr with hresponse | hsample
            · exact h.objs obj r (Or.inl hresponse)
            · cases hsample
          · rw [Function.update_of_ne hobj] at hr
            exact h.objs obj' r hr
        · cases hk
          exact congrArg Service.sample (Function.update_self obj _ s.objs)
      case hrefuse =>
        exact fun gate => h.frame (fun _ hr => hr) rfl rfl le_rfl (fun _ _ hk => hk) rfl rfl
  | @receive k obj r rest hc hr =>
      have hrest : Held { s with responses := rest } := by
        refine h.frame (fun r' hr' => ?_) rfl rfl le_rfl (fun _ _ hk => hk) rfl rfl
        rw [hr]
        exact List.mem_cons_of_mem r hr'
      have hk : k + 1 = s.made.length := hord.ring k obj hc
      have hended : s.ended = k := by simp only [State.ended, hc]
      have hlt : r.reply.call < s.made.length := by
        apply hord.below
        rw [line_received hr]
        exact List.mem_cons_self
      refine hrest.return hk hended (fun r' hr' => ?_) (Service.seen_take (h.clear k obj hc) r)
      rcases Service.holds_take hr' with rfl | hold
      · exact ⟨by omega, h.responses r (hr ▸ List.mem_cons_self)⟩
      · obtain ⟨hlt', hr'⟩ := h.objs obj r' hold
        exact ⟨by omega, hr'⟩
  | reject hc hr =>
      refine h.frame (fun r' hr' => ?_) rfl rfl le_rfl (fun _ _ hk => hk) rfl rfl
      rw [hr]
      exact List.mem_cons_of_mem _ hr'
  | @pick k obj r hc hm =>
      have hended : s.ended = k := by simp only [State.ended, hc]
      obtain ⟨hcall, hr⟩ := h.mail k r hm
      have hholds : ∀ r', ({ s.objs obj with response := some r } : Service Res).Holds r' →
          r'.call ≤ k ∧ s.Replied r' := by
        rintro r' (hresponse | hsample)
        · cases hresponse
          exact ⟨hcall.le, hr⟩
        · obtain ⟨hlt, hr'⟩ := h.objs obj r' (Or.inr hsample)
          exact ⟨by omega, hr'⟩
      cases hsample : (s.objs obj).sample with
      | none =>
          exact h.return (hord.fast k obj hc) hended hholds (r := r) (by simp [Service.seen, hsample])
      | some r' =>
          exact h.return (hord.fast k obj hc) hended hholds (r := r') (by simp [Service.seen, hsample])
  | @expire k obj hc =>
      have hended : s.ended = k := by simp only [State.ended, hc]
      have hk : k + 1 = s.made.length := hord.ring k obj hc
      refine h.frame (fun _ hr => hr) rfl rfl ?_ (fun _ _ hk => by cases hk) rfl rfl
      change s.ended ≤ s.made.length
      omega
  | @giveUp k obj hc =>
      have hended : s.ended = k := by simp only [State.ended, hc]
      have hk : k + 1 = s.made.length := hord.fast k obj hc
      refine h.frame (fun _ hr => hr) rfl rfl ?_ (fun _ _ hk => by cases hk) rfl rfl
      change s.ended ≤ s.made.length
      omega
  | pop hs hq => exact h.frame (fun _ hr => hr) rfl rfl le_rfl (fun _ _ hk => hk) rfl rfl
  | listen hs hq => exact h.frame (fun _ hr => hr) rfl rfl le_rfl (fun _ _ hk => hk) rfl rfl
  | fetch hs hq => exact h.frame (fun _ hr => hr) rfl rfl le_rfl (fun _ _ hk => hk) rfl rfl
  | lapse hs => exact h.frame (fun _ hr => hr) rfl rfl le_rfl (fun _ _ hk => hk) rfl rfl
  | skip hs => exact h.frame (fun _ hr => hr) rfl rfl le_rfl (fun _ _ hk => hk) rfl rfl
  | discard hs => exact h.frame (fun _ hr => hr) rfl rfl le_rfl (fun _ _ hk => hk) rfl rfl
  | @answer fast q body flat sent hs =>
      apply reply_cases
      case hfast =>
        intro _
        refine h.answer rfl (fun _ hr => Or.inl hr) (fun k r hr => ?_) rfl rfl rfl rfl
        change Function.update s.mail q.call (some ⟨q.call, body⟩) k = some r at hr
        by_cases hk : k = q.call
        · rw [hk, Function.update_self] at hr
          exact Or.inr ⟨hk, (Option.some.inj hr).symm⟩
        · rw [Function.update_of_ne hk] at hr
          exact Or.inl hr
      case hring =>
        intro _
        refine h.answer rfl (fun r hr => ?_) (fun _ _ hr => Or.inl hr) rfl rfl rfl rfl
        rcases List.mem_append.mp hr with hold | hnew
        · exact Or.inl hold
        · rw [List.mem_singleton.mp hnew]
          exact Or.inr rfl
      case hlost =>
        intro _
        exact h.answer rfl (fun _ hr => Or.inl hr) (fun _ _ hr => Or.inl hr) rfl rfl rfl rfl

/-! ## Replies of other calls -/

/-- What holds in every state of a run. -/
structure Sound (s : State Req Res) : Prop where
  once : Once s
  ordered : Ordered s
  held : Held s

theorem sound_init : Sound (init : State Req Res) where
  once := ⟨List.nodup_nil, fun _ hq => absurd hq List.not_mem_nil⟩
  ordered := ⟨List.Pairwise.nil, fun _ hj => absurd hj List.not_mem_nil,
    fun _ _ hc => (by cases hc), fun _ _ hc => (by cases hc)⟩
  held := ⟨fun _ hr => absurd hr List.not_mem_nil, fun _ _ hr => (by cases hr),
    fun _ _ hr => (by rcases hr with hr | hr <;> cases hr), fun _ _ hc => (by cases hc),
    fun _ ha => absurd ha List.not_mem_nil⟩

theorem Sound.step {s t : State Req Res} {a : Action Req Res} (h : Sound s)
    (hstep : step s a = some t) : Sound t :=
  ⟨h.once.step hstep, h.ordered.step hstep, h.held.step h.ordered hstep⟩

theorem sound_of_run {actions : List (Action Req Res)} {u : State Req Res}
    (hrun : (machine Req Res).run actions = some u) : Sound u :=
  Machine.invariant sound_init (fun _ _ _ h hstep => h.step hstep) hrun

/-- A call times out, and the next one gets its reply. -/
def lateReply : List (Action Bool Bool) :=
  [.call 0 7 true false 0 true, .timeout, .call 1 7 false false 0 true, .poll, .fetch,
    .answer true true true, .receive true]

/-- The call shows its own reply. -/
def Answer.Own (a : Answer Res) : Prop :=
  a.seen.map Reply.call = some a.call

instance (a : Answer Res) : Decidable a.Own :=
  inferInstanceAs (Decidable (a.seen.map Reply.call = some a.call))

/-- Every call that has returned true shows its own reply. -/
def Right (s : State Req Res) : Prop :=
  ∀ a ∈ s.answers, a.Own

theorem right_init : Right (init : State Req Res) :=
  fun _ ha => absurd ha List.not_mem_nil

/-- A response is accepted only with no earlier ring call under way, and a reply of the fast
path is stored only in an object without a sample. -/
def Clean (s : State Req Res) : Action Req Res → Prop
  | .receive true =>
      match s.client with
      | .ring k _ => ∀ j ∈ s.line, j = k
      | _ => True
  | .pick =>
      match s.client with
      | .fast _ obj => (s.objs obj).sample = none
      | _ => True
  | _ => True

theorem right_return {s : State Req Res} {k obj : ℕ} {o : Service Res} :
    Right (s.return k obj o) ↔ Right s ∧ o.seen.map Reply.call = some k := by
  unfold Right State.return
  simp [or_imp, forall_and, Answer.Own]

/-- The first call under way is the waiting one just if it is alone. -/
theorem Ordered.head_iff {s : State Req Res} (h : Ordered s) {k obj j : ℕ} {rest : List ℕ}
    (hc : s.client = .ring k obj) (hline : s.line = j :: rest) :
    j = k ↔ ∀ i ∈ s.line, i = k := by
  rw [hline]
  constructor
  · rintro rfl i hi
    rcases List.mem_cons.mp hi with rfl | hrest
    · rfl
    · have hsorted := h.sorted
      rw [hline] at hsorted
      have hlt : j < i := List.rel_of_pairwise_cons hsorted hrest
      have hbelow : i < s.made.length := h.below i (hline ▸ hi)
      have hk : j + 1 = s.made.length := h.ring j obj hc
      omega
  · exact fun hall => hall j List.mem_cons_self

theorem right_same {s t : State Req Res} {a : Action Req Res} (hanswers : t.answers = s.answers)
    (hclean : Clean s a) : Right t ↔ Right s ∧ Clean s a := by
  unfold Right
  rw [hanswers]
  exact (and_iff_left hclean).symm

/-- What a step makes of `Right`. -/
theorem right_step {s t : State Req Res} {a : Action Req Res} (h : Sound s)
    (hstep : step s a = some t) : Right t ↔ Right s ∧ Clean s a := by
  cases step_cases hstep with
  | call hc =>
      refine right_same ?_ trivial
      apply sendRequest_cases (P := fun t => t.answers = s.answers)
      case hfast => exact fun _ => rfl
      case hring => exact fun _ => rfl
      case hrefuse => exact fun _ => rfl
  | @receive k obj r rest hc hr =>
      have hclean : Clean s (.receive true) ↔ ∀ j ∈ s.line, j = k := by simp only [Clean, hc]
      rw [right_return, hclean, ← h.ordered.head_iff hc (line_received hr),
        Service.seen_take (h.held.clear k obj hc) r]
      exact and_congr Iff.rfl Option.some_inj
  | reject hc hr => exact right_same rfl trivial
  | @pick k obj r hc hm =>
      have hclean : Clean s (.pick : Action Req Res) ↔ (s.objs obj).sample = none := by
        simp only [Clean, hc]
      rw [right_return, hclean]
      refine and_congr Iff.rfl ?_
      cases hsample : (s.objs obj).sample with
      | none => simpa [Service.seen, hsample] using (h.held.mail k r hm).1
      | some r' =>
          -- The sample is an earlier call's.
          have hlt : r'.call < s.ended := (h.held.objs obj r' (Or.inr hsample)).1
          simp only [State.ended, hc] at hlt
          simpa [Service.seen, hsample] using hlt.ne
  | expire hc => exact right_same rfl trivial
  | giveUp hc => exact right_same rfl trivial
  | pop hs hq => exact right_same rfl trivial
  | listen hs hq => exact right_same rfl trivial
  | fetch hs hq => exact right_same rfl trivial
  | lapse hs => exact right_same rfl trivial
  | skip hs => exact right_same rfl trivial
  | discard hs => exact right_same rfl trivial
  | answer hs =>
      refine right_same ?_ trivial
      unfold State.reply
      split_ifs <;> rfl

/-- **Own replies.**  Every call that returns true shows its own reply just if no response was
accepted while an earlier ring call was under way, and no reply of the fast path was stored in
an object that has a sample. -/
theorem own_reply_iff {actions : List (Action Req Res)} {u : State Req Res}
    (hrun : (machine Req Res).run actions = some u) :
    (∀ a ∈ u.answers, a.Own) ↔ (machine Req Res).Guarded Clean actions := by
  let Anywhere : State Req Res → Prop := fun _ => True
  have hanywhere : Anywhere u := trivial
  have hinit : Sound (machine Req Res).init := sound_init
  have hright : Right (machine Req Res).init := right_init
  refine Machine.good_iff_guarded hinit hright ?_ (fun _ _ _ _ _ => trivial) ?_ hrun hanywhere
  · exact fun s a t h hstep => h.step hstep
  · exact fun s a t h hstep _ => right_step h hstep

theorem own_reply_iff_lateReply : ¬ (machine Bool Bool).Guarded Clean lateReply := by
  have hany : ((machine Bool Bool).run lateReply).any
      (fun u => decide (¬ ∀ a ∈ u.answers, a.Own)) = true := by decide
  obtain ⟨u, hrun, hwrong⟩ := Machine.exists_of_any hany
  exact fun hclean => hwrong ((own_reply_iff hrun).mpr hclean)

/-! ## Runs without losses -/

/-- How many ring calls wait. -/
def State.waiting (s : State Req Res) : ℕ :=
  match s.client with
  | .ring _ _ => 1
  | _ => 0

/-- Every ring call that waits or has timed out is under way or lost, besides those that got an
earlier call's reply; one that waits is under way as long as nothing is lost. -/
structure Counted (s : State Req Res) : Prop where
  total : s.line.length + s.lost = s.expired + s.waiting
  waits : ∀ k obj, s.client = .ring k obj → s.lost = 0 → k ∈ s.line

theorem Counted.frame {s t : State Req Res} (h : Counted s) (hline : t.line = s.line)
    (hlost : t.lost = s.lost) (hexpired : t.expired = s.expired) (hclient : t.client = s.client) :
    Counted t where
  total := by
    have htotal := h.total
    unfold State.waiting at htotal ⊢
    rwa [hline, hlost, hexpired, hclient]
  waits k obj hc hl := by
    rw [hline]
    exact h.waits k obj (hclient ▸ hc) (hlost ▸ hl)

/-- One call under way is lost. -/
theorem Counted.lose {s t : State Req Res} (h : Counted s)
    (hline : t.line.length + 1 = s.line.length) (hlost : t.lost = s.lost + 1)
    (hexpired : t.expired = s.expired) (hclient : t.client = s.client) : Counted t where
  total := by
    have htotal := h.total
    unfold State.waiting at htotal ⊢
    rw [hlost, hexpired, hclient]
    omega
  waits k obj hc hl := by omega

theorem Counted.step {s t : State Req Res} {a : Action Req Res} (h : Counted s)
    (hstep : step s a = some t) : Counted t := by
  cases step_cases hstep with
  | @call obj msgId body _ _ _ hc =>
      have htotal := h.total
      simp only [State.waiting, hc, Nat.add_zero] at htotal
      apply sendRequest_cases
      case hfast => exact fun _ => ⟨htotal, fun _ _ hk => (by cases hk)⟩
      case hring =>
        intro gate
        refine ⟨?_, fun k obj hk _ => ?_⟩
        · simp only [State.line, State.ringHand, State.waiting, List.map_append,
            List.length_append, List.length_map, List.map_cons, List.map_nil, List.length_cons,
            List.length_nil] at htotal ⊢
          omega
        · cases hk
          simp [State.line]
      case hrefuse => exact fun _ => h.frame rfl rfl rfl rfl
  | @receive k obj r rest hc hr =>
      have htotal := h.total
      have hline := congrArg List.length (line_received hr)
      simp only [State.waiting, hc] at htotal
      rw [List.length_cons] at hline
      refine ⟨?_, fun _ _ hk => (by cases hk)⟩
      change (State.line { s with responses := rest }).length + s.lost = s.expired
      omega
  | reject hc hr =>
      refine h.lose ?_ rfl rfl rfl
      rw [line_received hr]
      rfl
  | pick hc hm =>
      have htotal := h.total
      simp only [State.waiting, hc] at htotal
      exact ⟨htotal, fun _ _ hk => (by cases hk)⟩
  | expire hc =>
      have htotal := h.total
      simp only [State.waiting, hc] at htotal
      exact ⟨htotal, fun _ _ hk => (by cases hk)⟩
  | giveUp hc =>
      have htotal := h.total
      simp only [State.waiting, hc] at htotal
      exact ⟨htotal, fun _ _ hk => (by cases hk)⟩
  | pop hs hq =>
      refine h.frame ?_ rfl rfl rfl
      simp only [State.line, State.ringHand, hs]
  | listen hs hq =>
      refine h.frame ?_ rfl rfl rfl
      simp only [State.line, State.ringHand, hs]
  | fetch hs hq =>
      refine h.frame ?_ rfl rfl rfl
      simp [State.line, State.ringHand, hs, hq]
  | lapse hs =>
      refine h.frame ?_ rfl rfl rfl
      simp only [State.line, State.ringHand, hs]
  | skip hs =>
      refine h.frame ?_ rfl rfl rfl
      simp only [State.line, State.ringHand, hs]
  | discard hs =>
      refine h.lose ?_ rfl rfl rfl
      simp only [State.line, State.ringHand, hs, List.length_append, List.length_cons,
        List.length_nil]
      omega
  | answer hs =>
      apply reply_cases
      case hfast =>
        rintro rfl
        refine h.frame ?_ rfl rfl rfl
        simp only [State.line, State.ringHand, hs]
      case hring =>
        rintro rfl
        refine h.frame ?_ rfl rfl rfl
        simp [State.line, State.ringHand, hs]
      case hlost =>
        rintro rfl
        refine h.lose ?_ rfl rfl rfl
        simp only [State.line, State.ringHand, hs, List.length_append, List.length_cons,
          List.length_nil]
        omega

/-- A response is accepted only while no ring call has timed out, and a reply of the fast path
is stored only in an object without a sample. -/
def Prompt (s : State Req Res) : Action Req Res → Prop
  | .receive true => s.expired = 0
  | .pick =>
      match s.client with
      | .fast _ obj => (s.objs obj).sample = none
      | _ => True
  | _ => True

/-- Where nothing is lost, an earlier ring call is under way just if one has timed out. -/
theorem clean_iff_prompt {s t : State Req Res} {a : Action Req Res} (h : Sound s)
    (hcount : Counted s) (hstep : step s a = some t) (hlost : s.lost = 0) :
    Clean s a ↔ Prompt s a := by
  cases step_cases hstep with
  | @receive k obj r rest hc hr =>
      have htotal := hcount.total
      have hline := line_received hr
      simp only [hlost, State.waiting, hc, Nat.add_zero] at htotal
      have hclean : Clean s (.receive true) ↔ ∀ j ∈ s.line, j = k := by simp only [Clean, hc]
      rw [hclean]
      change _ ↔ s.expired = 0
      constructor
      · -- The calls under way are distinct, so there is one.
        intro hall
        have hsorted := h.ordered.sorted
        cases hrest : State.line { s with responses := rest } with
        | nil =>
            rw [hline, hrest, List.length_singleton] at htotal
            omega
        | cons i more =>
            rw [hline, hrest] at hsorted hall
            have hlt : r.reply.call < i := List.rel_of_pairwise_cons hsorted List.mem_cons_self
            have hhead : r.reply.call = k := hall _ List.mem_cons_self
            have hnext : i = k := hall _ (List.mem_cons_of_mem _ List.mem_cons_self)
            omega
      · intro hexpired j hj
        have hk : k ∈ s.line := hcount.waits k obj hc hlost
        obtain ⟨i, hi⟩ : ∃ i, s.line = [i] := List.length_eq_one_iff.mp (by omega)
        rw [hi] at hj hk
        rw [List.mem_singleton.mp hj, List.mem_singleton.mp hk]
  | call => exact Iff.rfl
  | reject => exact Iff.rfl
  | pick => exact Iff.rfl
  | expire => exact Iff.rfl
  | giveUp => exact Iff.rfl
  | pop => exact Iff.rfl
  | listen => exact Iff.rfl
  | fetch => exact Iff.rfl
  | lapse => exact Iff.rfl
  | skip => exact Iff.rfl
  | discard => exact Iff.rfl
  | answer => exact Iff.rfl

theorem lost_le_of_step {s t : State Req Res} {a : Action Req Res} (hstep : step s a = some t) :
    s.lost ≤ t.lost := by
  cases step_cases hstep with
  | call hc =>
      apply sendRequest_cases (P := fun t => s.lost ≤ t.lost)
      case hfast => exact fun _ => le_rfl
      case hring => exact fun _ => le_rfl
      case hrefuse => exact fun _ => le_rfl
  | receive => exact le_rfl
  | reject => exact Nat.le_succ _
  | pick => exact le_rfl
  | expire => exact le_rfl
  | giveUp => exact le_rfl
  | pop => exact le_rfl
  | listen => exact le_rfl
  | fetch => exact le_rfl
  | lapse => exact le_rfl
  | skip => exact le_rfl
  | discard => exact Nat.le_succ _
  | answer hs =>
      apply reply_cases (P := fun t => s.lost ≤ t.lost)
      case hfast => exact fun _ => le_rfl
      case hring => exact fun _ => le_rfl
      case hlost => exact fun _ => Nat.le_succ _

/-- The object of a ring call whose reply was lent as a sample is used for a call of the fast
path. -/
def staleView : List (Action Bool Bool) :=
  [.call 0 7 true true 1 true, .poll, .fetch, .answer true true true, .receive true,
    .call 0 7 true true 1 false, .call 0 7 false true 1 true, .poll,
    .answer false true true, .pick]

end DzIpc.SerCli.Rpc
