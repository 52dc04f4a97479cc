import Xv6Draw.Ai.Link

/-!
# Every caller gets its own reply

The completion flag and the response buffer belong to the latest admitted query.
A call that waits for an earlier one must return before the next is admitted, or
it delivers the reply of the next one. Under this condition the requests pass
through the system one at a time: `Owned` says that everything in flight belongs
to the latest request, and `Delivered` that every text handed to a caller is the
reply to its own request.
-/

namespace Xv6Draw.AiSystem

open Function Lines List Option Transition

/-- The condition on the steps of a run under which callers get their own
replies: the run is orderly, and a call is admitted only when every earlier call
has returned. -/
def Exclusive (s : State) (e : Event) : Prop :=
  Orderly s e ∧ ∀ pid promptlen maxlen, e = .call pid promptlen maxlen →
    admits s promptlen maxlen = true → ∀ p, s.phase p = .outside

/-- Everything in flight belongs to the latest request: the calls in progress,
the requests at the host, the reply on the line and the completed reply. -/
structure Owned (s : State) : Prop where
  current : ∀ p req, (s.phase p).req = some req → req + 1 = s.nextReq
  single : ∀ p q req req', (s.phase p).req = some req → (s.phase q).req = some req' → p = q
  queued : ∀ req ∈ s.queue, req + 1 = s.nextReq
  line : ∀ b req, (b, some req) ∈ s.wire → req + 1 = s.nextReq
  answered : ∀ a ∈ s.answers, a.1 < s.nextReq
  unanswered : ∀ req, req ∈ s.queue ∨ (∃ p maxlen, s.phase p = .claimed req maxlen) →
    ∀ a ∈ s.answers, a.1 ≠ req
  once : (s.answers.map Prod.fst).Nodup
  finished : s.ai.complete = true → s.ai.failed = false ∧ ∃ req body, req + 1 = s.nextReq ∧
    s.source = some req ∧ (req, body) ∈ s.answers ∧ s.ai.parser.response = replyText body

/-- What the calls have returned: one result for each request, and every text is
the reply to the caller's own request. -/
structure Delivered (s : State) : Prop where
  past : ∀ r ∈ s.results, r.req < s.nextReq
  returned : ∀ r ∈ s.results, ∀ p, (s.phase p).req ≠ some r.req
  distinct : (s.results.map Result.req).Nodup
  own : ∀ r ∈ s.results, ∀ text, r.text = some text → r.source = some r.req ∧
    ∃ body, (r.req, body) ∈ s.answers ∧ text = replyText body

variable {s t : State} {pid req : ℕ}

/-- A step that keeps the line keeps the ownership. -/
theorem Owned.keeps (howned : Owned s) (hkeeps : KeepsLine s t) : Owned t where
  current := by
    intro p req hp
    rw [hkeeps.nextReq]
    exact howned.current p req ((hkeeps.phase p).1 req hp)
  single := by
    intro p q req req' hp hq
    exact howned.single p q req req' ((hkeeps.phase p).1 req hp) ((hkeeps.phase q).1 req' hq)
  queued := by
    rw [hkeeps.queue, hkeeps.nextReq]
    exact howned.queued
  line := by
    rw [hkeeps.wire, hkeeps.nextReq]
    exact howned.line
  answered := by
    rw [hkeeps.answers, hkeeps.nextReq]
    exact howned.answered
  unanswered := by
    intro req hreq
    rw [hkeeps.answers]
    apply howned.unanswered req
    rcases hreq with hqueue | ⟨p, maxlen, hp⟩
    · exact .inl (hkeeps.queue ▸ hqueue)
    · exact .inr ⟨p, maxlen, (hkeeps.phase p).2 req maxlen hp⟩
  once := by
    rw [hkeeps.answers]
    exact howned.once
  finished := by
    rw [hkeeps.complete, hkeeps.failed, hkeeps.nextReq, hkeeps.source, hkeeps.answers, hkeeps.parser]
    exact howned.finished

/-- An admission when every call has returned makes its request the latest. -/
theorem Owned.claim (howned : Owned s) (hwire : s.wire = []) (hqueue : s.queue = [])
    (houtside : ∀ p, s.phase p = .outside) (pid : ℕ) (maxlen : ℤ) :
    Owned { s with
      ai := aiClaim s.ai
      phase := update s.phase pid (.claimed s.nextReq maxlen)
      nextReq := s.nextReq + 1 } := by
  have hphase : ∀ p req, (update s.phase pid (.claimed s.nextReq maxlen) p).req =
      some req → p = pid ∧ req = s.nextReq := by
    intro p req hp
    by_cases hne : p = pid
    · subst p
      rw [update_self] at hp
      exact ⟨rfl, (some.inj hp).symm⟩
    · rw [update_of_ne hne, houtside p] at hp
      simp [Phase.req] at hp
  refine ⟨?_, ?_, ?_, ?_, ?_, ?_, howned.once, ?_⟩
  · intro p req hp
    rw [(hphase p req hp).2]
  · intro p q req req' hp hq
    rw [(hphase p req hp).1, (hphase q req' hq).1]
  · simp [hqueue]
  · simp [hwire]
  · intro a ha
    have hlt := howned.answered a ha
    change a.1 < s.nextReq + 1
    omega
  · intro req hreq a ha
    have hlt := howned.answered a ha
    rcases hreq with hmem | ⟨p, m, hp⟩
    · simp [hqueue] at hmem
    · have hreq : req = s.nextReq := (hphase p req (congrArg Phase.req hp)).2
      omega
  · intro hcomplete
    simp [aiClaim] at hcomplete

/-- Sending the request keeps the ownership. -/
theorem Owned.send (howned : Owned s) {maxlen : ℤ}
    (hphase : s.phase pid = .claimed req maxlen) (heard : Bool) :
    Owned { s with
      phase := update s.phase pid (.sent req maxlen)
      queue := if heard then s.queue ++ [req] else s.queue } := by
  have hadvances : Advances s.phase (update s.phase pid (.sent req maxlen)) :=
    advances_update (by simp [hphase, Phase.req]) (by simp)
  have hqueue : ∀ r ∈ (if heard then s.queue ++ [req] else s.queue), r ∈ s.queue ∨ r = req := by
    intro r hr
    cases heard with
    | false => exact .inl hr
    | true => simpa using hr
  refine ⟨?_, ?_, ?_, howned.line, howned.answered, ?_, howned.once, howned.finished⟩
  · intro p r hp
    exact howned.current p r ((hadvances p).1 r hp)
  · intro p q r r' hp hq
    exact howned.single p q r r' ((hadvances p).1 r hp) ((hadvances q).1 r' hq)
  · intro r hr
    rcases hqueue r hr with hmem | rfl
    · exact howned.queued r hmem
    · exact howned.current pid r (by rw [hphase]; rfl)
  · intro r hr
    apply howned.unanswered r
    rcases hr with hmem | ⟨p, m, hp⟩
    · rcases hqueue r hmem with hmem | rfl
      · exact .inl hmem
      · exact .inr ⟨pid, maxlen, hphase⟩
    · exact .inr ⟨p, m, (hadvances p).2 r m hp⟩

/-- The answer to the queued request keeps the ownership. -/
theorem Owned.answer (howned : Owned s) (hqueue : s.queue = [req])
    (hnone : ∀ p, ¬ s.Claimed p) (hwire : s.wire = []) (body : List (List ℕ)) :
    Owned { s with
      queue := []
      answers := s.answers ++ [(req, body)]
      wire := s.wire ++ reply req body } := by
  have hcurrent : req + 1 = s.nextReq := howned.queued req (by simp [hqueue])
  refine ⟨howned.current, howned.single, by simp, ?_, ?_, ?_, ?_, ?_⟩
  · intro b r hmem
    simp only [hwire, nil_append, reply, List.mem_map, Prod.mk.injEq, some.injEq] at hmem
    obtain ⟨c, -, -, rfl⟩ := hmem
    exact hcurrent
  · intro a ha
    rcases mem_append.mp ha with hold | hnew
    · exact howned.answered a hold
    · rw [mem_singleton] at hnew
      subst a
      change req < s.nextReq
      omega
  · intro r hr
    rcases hr with hmem | ⟨p, m, hp⟩
    · simp at hmem
    · exact absurd ⟨r, m, hp⟩ (hnone p)
  · have hfresh : req ∉ s.answers.map Prod.fst := by
      intro hmem
      obtain ⟨a, ha, hreq⟩ := List.mem_map.mp hmem
      exact howned.unanswered req (.inl (by simp [hqueue])) a ha hreq
    rw [map_append, map_singleton, nodup_append]
    refine ⟨howned.once, by simp, ?_⟩
    intro a ha b hb
    rw [mem_singleton] at hb
    subst b
    intro heq
    rw [heq] at ha
    exact hfresh ha
  · intro hcomplete
    obtain ⟨hfailed, r, body', hr, hsource, hmem, htext⟩ := howned.finished hcomplete
    exact ⟨hfailed, r, body', hr, hsource, mem_append_left _ hmem, htext⟩

/-- A byte taken from the line keeps the ownership: the reply that it completes
is the one to the latest request. -/
theorem Owned.take (howned : Owned s) (hlinked : Linked s)
    (htake : take s = some t) : Owned t := by
  rcases hlinked.take_spec htake with ⟨-, b, wire, hwire, rfl | rfl⟩ |
    ⟨-, req, body, b, wire, ai, hwire, hmem, hqueue, hnone, -, rfl, hcases⟩
  · exact { howned with line := fun c r h => howned.line c r (by simp [hwire, h]) }
  · exact { howned with line := fun c r h => howned.line c r (by simp [hwire, h]) }
  have hcurrent : req + 1 = s.nextReq := howned.line b req (by simp [hwire])
  refine ⟨howned.current, howned.single, howned.queued, ?_, howned.answered, howned.unanswered,
    howned.once, ?_⟩
  · intro c r h
    exact howned.line c r (by rw [hwire]; exact mem_cons_of_mem _ h)
  · intro hcomplete
    rcases hcases with ⟨-, -, -, hfailed, hparser⟩ | ⟨-, hopen, -⟩
    · change ai.complete = true at hcomplete
      exact ⟨hfailed, req, body, hcurrent, by simp [hcomplete], hmem, by rw [hparser]⟩
    · change ai.complete = true at hcomplete
      simp [hopen] at hcomplete

/-- Every step of an exclusive run keeps the ownership. -/
theorem Owned.step {e : Event} (howned : Owned s) (hlinked : Linked s)
    (hexclusive : Exclusive s e) (hstep : AiSystem.step s e = some t) : Owned t := by
  obtain ⟨horderly, houtside⟩ := hexclusive
  cases hlinked.lineStep horderly hstep with
  | claim pid promptlen maxlen hidle hadmits _ hwire =>
    exact howned.claim hwire (hlinked.idle hidle).2.1
      (houtside pid promptlen maxlen rfl hadmits) pid maxlen
  | send pid req maxlen heard hphase => exact howned.send hphase heard
  | answer req queue body hqueue _ _ =>
    obtain ⟨hwire, rfl, hnone⟩ := hlinked.quiet_of_queued hqueue
    exact howned.answer hqueue hnone hwire body
  | noise bs _ =>
    refine { howned with line := ?_ }
    intro b req hmem
    exact howned.line b req (by simpa using hmem)
  | take _ htake => exact howned.take hlinked htake
  | keeps _ _ hkeeps _ => exact howned.keeps hkeeps

/-- A step without a new result keeps what was delivered, as long as calls in
progress keep their requests or have a new one. -/
theorem Delivered.frame (hdelivered : Delivered s) (hresults : t.results = s.results)
    (hnext : s.nextReq ≤ t.nextReq) (hanswers : ∀ a ∈ s.answers, a ∈ t.answers)
    (hphase : ∀ p req, (t.phase p).req = some req →
      (s.phase p).req = some req ∨ s.nextReq ≤ req) : Delivered t where
  past := by
    intro r hr
    exact lt_of_lt_of_le (hdelivered.past r (hresults ▸ hr)) hnext
  returned := by
    intro r hr p hp
    have hr' : r ∈ s.results := hresults ▸ hr
    rcases hphase p r.req hp with hold | hnew
    · exact hdelivered.returned r hr' p hold
    · have hlt := hdelivered.past r hr'
      omega
  distinct := by
    rw [hresults]
    exact hdelivered.distinct
  own := by
    intro r hr text htext
    obtain ⟨hsource, body, hmem, heq⟩ := hdelivered.own r (hresults ▸ hr) text htext
    exact ⟨hsource, body, hanswers _ hmem, heq⟩

/-- A call that returns adds a result for its request, and takes its request out
of flight. -/
theorem Delivered.pass (hdelivered : Delivered s) (howned : Owned s)
    (hreq : (s.phase pid).req = some req) (ai : Ai) (text : Option (List ℕ)) (source : Option ℕ)
    (hown : ∀ bytes, text = some bytes → source = some req ∧
      ∃ body, (req, body) ∈ s.answers ∧ bytes = replyText body) :
    Delivered { s with
      ai := ai
      phase := update s.phase pid .outside
      results := s.results ++ [⟨pid, req, text, source⟩] } := by
  have hcurrent := howned.current pid req hreq
  have hphase : ∀ p r, (update s.phase pid .outside p).req = some r → p ≠ pid ∧
      (s.phase p).req = some r := by
    intro p r hp
    by_cases hne : p = pid
    · simp [hne, Phase.req] at hp
    · rw [update_of_ne hne] at hp
      exact ⟨hne, hp⟩
  refine ⟨?_, ?_, ?_, ?_⟩
  · intro r hr
    rcases mem_append.mp hr with hold | hnew
    · exact hdelivered.past r hold
    · rw [mem_singleton] at hnew
      subst r
      change req < s.nextReq
      omega
  · intro r hr p hp
    obtain ⟨hne, hp'⟩ := hphase p r.req hp
    exact hne (howned.single p pid r.req req hp' hreq)
  · rw [map_append, map_singleton, nodup_append]
    refine ⟨hdelivered.distinct, by simp, ?_⟩
    intro a ha b hb heq
    rw [mem_singleton] at hb
    obtain ⟨r, hr, rfl⟩ := List.mem_map.mp ha
    exact hdelivered.returned r hr pid (by rw [hreq, heq, hb])
  · intro r hr bytes hbytes
    rcases mem_append.mp hr with hold | hnew
    · exact hdelivered.own r hold bytes hbytes
    · rw [mem_singleton] at hnew
      subst r
      exact hown bytes hbytes

/-- The text that a completed call delivers is the reply to its own request. -/
theorem Owned.delivers (howned : Owned s)
    (hreq : (s.phase pid).req = some req) (hcomplete : s.ai.complete = true) {maxlen : ℤ}
    {bytes : List ℕ} (htext : aiqueryResult s.ai maxlen = some bytes) :
    s.source = some req ∧ ∃ body, (req, body) ∈ s.answers ∧ bytes = replyText body := by
  obtain ⟨-, r, body, hr, hsource, hmem, hresponse⟩ := howned.finished hcomplete
  have hcurrent := howned.current pid req hreq
  have hrr : r = req := by omega
  subst r
  refine ⟨hsource, body, hmem, ?_⟩
  unfold aiqueryResult at htext
  split_ifs at htext with hfail
  rw [← hresponse, ← some.inj htext]
  rfl

/-- Every step of an exclusive run keeps the property of the results. -/
theorem Delivered.step {e : Event} (hdelivered : Delivered s) (howned : Owned s)
    (hstep : AiSystem.step s e = some t) : Delivered t := by
  have hkeep : ∀ {t : State}, t.results = s.results → t.nextReq = s.nextReq →
      t.answers = s.answers → (∀ p, (t.phase p).req = (s.phase p).req) → Delivered t := by
    intro t hresults hnext hanswers hphase
    exact hdelivered.frame hresults hnext.ge (by simp [hanswers]) fun p _ h => .inl (hphase p ▸ h)
  have hmove : ∀ {pid} {ph ph' : Phase}, s.phase pid = ph → ph'.req = ph.req →
      ∀ p, (update s.phase pid ph' p).req = (s.phase p).req := by
    intro pid ph ph' hph hreq p
    by_cases hp : p = pid
    · rw [hp, update_self, hreq, hph]
    · rw [update_of_ne hp]
  cases e with
  | call pid promptlen maxlen =>
    obtain ⟨-, ⟨-, rfl⟩ | rfl⟩ := call_cases hstep
    · refine hdelivered.frame rfl (Nat.le_succ _) (fun _ h => h) ?_
      intro p req hp
      by_cases hne : p = pid
      · subst p
        simp only [update_self, Phase.req, some.injEq] at hp
        exact .inr hp.le
      · simp only [update_of_ne hne] at hp
        exact .inl hp
    · exact hdelivered
  | send pid heard =>
    obtain ⟨req, maxlen, hphase, rfl⟩ := send_cases hstep
    exact hkeep rfl rfl rfl (hmove hphase rfl)
  | start pid =>
    obtain ⟨req, maxlen, hphase, rfl⟩ := start_cases hstep
    exact hkeep rfl rfl rfl (hmove hphase rfl)
  | pass pid =>
    obtain ⟨req, maxlen, started, hphase, hcases⟩ := pass_cases hstep
    have hreq : (s.phase pid).req = some req := by rw [hphase]; rfl
    rcases hcases with ⟨hcomplete, rfl⟩ | ⟨-, rfl⟩ | rfl
    · apply hdelivered.pass howned hreq s.ai
      intro bytes hbytes
      exact howned.delivers hreq hcomplete hbytes
    · apply hdelivered.pass howned hreq
      intro bytes hbytes
      simp at hbytes
    · exact hkeep rfl rfl rfl (hmove hphase rfl)
  | wake pid =>
    obtain ⟨req, maxlen, started, hphase, rfl⟩ := wake_cases hstep
    exact hkeep rfl rfl rfl (hmove hphase rfl)
  | kill _ | tick | noise _ =>
    rw [← some.inj hstep]
    exact hkeep rfl rfl rfl fun _ => rfl
  | answer body =>
    obtain ⟨-, req, queue, -, rfl⟩ := answer_cases hstep
    exact hdelivered.frame rfl le_rfl (fun _ h => mem_append_left _ h) fun _ _ h => .inl h
  | enter =>
    obtain ⟨-, rfl⟩ := enter_cases hstep
    exact hkeep rfl rfl rfl fun _ => rfl
  | take =>
    obtain ⟨b, tag, wire, -, ⟨-, ai, -, rfl⟩ | ⟨-, rfl⟩⟩ := take_cases hstep
    · exact hkeep rfl rfl rfl fun _ => rfl
    · exact hkeep rfl rfl rfl fun _ => rfl
  | leave =>
    obtain rfl := leave_cases hstep
    exact hkeep rfl rfl rfl fun _ => rfl

theorem owned_init : Owned init where
  current := by simp [init, Phase.req]
  single := by simp [init, Phase.req]
  queued := by simp [init]
  line := by simp [init]
  answered := by simp [init]
  unanswered := by simp [init]
  once := by simp [init]
  finished := by simp [init, aiInit]

theorem delivered_init : Delivered init where
  past := by simp [init]
  returned := by simp [init]
  distinct := by simp [init]
  own := by simp [init]

/-- **Every caller gets its own reply.** In every state of an exclusive run, the
host has answered each request at most once, a call that returned a text has
returned the reply to its own request, and no two calls have returned the same
reply. -/
theorem callers_get_own_reply {es : List Event} {s : State} (hexclusive : Along step Exclusive init es)
    (hrun : run step init es = some s) : (s.answers.map Prod.fst).Nodup ∧
      (∀ r ∈ s.results, ∀ text, r.text = some text → r.source = some r.req ∧
        ∃ body, (r.req, body) ∈ s.answers ∧ text = replyText body) ∧
      s.results.Pairwise fun r r' => r.text.isSome → r'.text.isSome → r.source ≠ r'.source := by
  have hinv : Linked s ∧ Owned s ∧ Delivered s := by
    refine invariant_along (I := fun s => Linked s ∧ Owned s ∧ Delivered s) ?_
      ⟨linked_init, owned_init, delivered_init⟩ hexclusive hrun
    rintro s e t ⟨hlinked, howned, hdelivered⟩ hexcl hstep
    exact ⟨hlinked.step hexcl.1 hstep, howned.step hlinked hexcl hstep, hdelivered.step howned hstep⟩
  obtain ⟨-, howned, hdelivered⟩ := hinv
  refine ⟨howned.once, hdelivered.own, ?_⟩
  -- the sources of delivered texts are the requests, which are distinct
  have hdistinct := pairwise_map.mp hdelivered.distinct
  refine hdistinct.imp_of_mem ?_
  intro r r' hr hr' hne htext htext' hsource
  obtain ⟨text, htext⟩ := isSome_iff_exists.mp htext
  obtain ⟨text', htext'⟩ := isSome_iff_exists.mp htext'
  rw [(hdelivered.own r hr text htext).1, (hdelivered.own r' hr' text' htext').1, some.injEq] at hsource
  exact hne hsource

/-- A single query gets its own reply. -/
theorem one_reply_delivered : ∃ s, run step init oneReply = some s ∧
      s.results = [⟨0, 0, some (str "DOT\n"), some 0⟩] ∧
      ∀ r ∈ s.results, ∀ text, r.text = some text → r.source = some r.req ∧
        ∃ body, (r.req, body) ∈ s.answers ∧ text = replyText body := by
  have hexclusive : Along step Exclusive init oneReply := by
    refine ⟨⟨fun _ => by decide, fun _ _ _ _ _ _ => rfl⟩, fun t _ => ?_⟩
    apply along_of_forall
    intro e he s
    obtain ⟨horderly, hcall⟩ := orderly_oneReply_tail e he s
    exact ⟨horderly, fun pid promptlen maxlen h => absurd h (hcall pid promptlen maxlen)⟩
  have hend : (run step init oneReply).map State.results =
      some [⟨0, 0, some (str "DOT\n"), some 0⟩] := by decide +kernel
  obtain ⟨s, hrun, hresults⟩ := map_eq_some_iff.mp hend
  exact ⟨s, hrun, hresults, (callers_get_own_reply hexclusive hrun).2.1⟩

/-- A second query is admitted after the first reply has ended and before the
first caller has returned. Both callers then return the second reply. -/
theorem second_query_overtakes_first_caller : (run step init
      ([.call 0 5 100, .send 0 true, .start 0, .answer [str "A"], .enter] ++ replicate 22 .take ++
        [.leave, .call 1 5 100, .send 1 true, .start 1, .answer [str "B"], .enter] ++
        replicate 22 .take ++ [.pass 0, .pass 1])).map State.results =
      some [⟨0, 0, some (str "B\n"), some 1⟩, ⟨1, 1, some (str "B\n"), some 1⟩] := by
  decide +kernel

end Xv6Draw.AiSystem
