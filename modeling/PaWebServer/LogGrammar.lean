import PaWebServer.LogFile
import PaWebServer.LogQueueProof

/-!
# What the log threads leave in the file

The consumer and `closeLogs` append to one file.  When `closeLogs` appends its trailer while an
entry is in the queue or in the consumer's hand, or when a producer adds its entry between the
trailer and the `EOF`, the entry comes after the trailer.  These are the only ways in which the
file can go wrong: otherwise it is the header, entries, and then the trailer or nothing
(`grammar_of_quietClose`).
-/

namespace LogQueue

open LogsHandler Transition

variable {calls : List LogCall} {s s' : State} {a : Action}

/-! ## The grammar of the file -/

/-- The header and then entries of the given calls. -/
def Open (calls : List LogCall) (file : List Block) : Prop :=
  ∃ cs : List LogCall, (∀ c ∈ cs, c ∈ calls) ∧
    file = .header :: cs.map fun c => .entry (logEntry c)

/-- An open file and then the trailer. -/
def Closed (calls : List LogCall) (file : List Block) : Prop :=
  ∃ front, Open calls front ∧ file = front ++ [.trailer]

/-- The header, then complete entries, then the trailer or nothing. -/
def Grammar (calls : List LogCall) (file : List Block) : Prop :=
  Open calls file ∨ Closed calls file

theorem Open.init : Open calls State.init.file := ⟨[], by simp, rfl⟩

theorem Open.append_entry {file : List Block} (h : Open calls file) {c : LogCall}
    (hc : c ∈ calls) : Open calls (file ++ [.entry (logEntry c)]) := by
  obtain ⟨cs, hcs, rfl⟩ := h
  refine ⟨cs ++ [c], fun d hd => ?_, by simp⟩
  rcases List.mem_append.1 hd with hd | hd
  · exact hcs d hd
  · rwa [List.mem_singleton.1 hd]

/-! ## When a file can be closed -/

/-- What the consumer has polled and not yet written. -/
def Consumer.hand : Consumer → Option Text
  | .unlocking e => e
  | .writing e => some e
  | _ => none

/-- The consumer has nothing left to write: it has failed, or it has nothing in its hand and
nothing in the queue. -/
def Sealed (s : State) : Prop :=
  s.consumer 0 = .failed ∨ (s.consumer 0).hand = none ∧ s.logQueue = []

/-- The consumer will write nothing more: it has ended, or the next element that it polls is the
`EOF`. -/
def Ended (s : State) : Prop :=
  s.consumer 0 = .failed ∨ s.consumer 0 = .stopped ∨
    (s.consumer 0).hand = none ∧ ∃ q, s.logQueue = eof :: q

/-- `closeLogs` has appended the trailer and not yet added the `EOF`. -/
def Hook.closing : Hook → Bool
  | .setting | .adding (_ + 1) => true
  | _ => false

/-- `closeLogs` appends the trailer only when the consumer has nothing left to write, and until
its `EOF` is in the queue no producer adds an entry for a consumer that could write it. -/
def QuietClose (s : State) : Action → Prop
  | .hook _ => s.hook 0 = .appending → Sealed s
  | .producer i => s.producer i = .adding → (s.hook 0).closing → s.consumer 0 = .failed
  | _ => True

instance (s : State) : Decidable (Sealed s) :=
  inferInstanceAs (Decidable (_ ∨ _ ∧ _))

instance (s : State) : (a : Action) → Decidable (QuietClose s a)
  | .hook _ => inferInstanceAs (Decidable (_ → Sealed s))
  | .producer _ => inferInstanceAs (Decidable (_ → _ → _))
  | .consumer _ | .ioError _ => isTrue trivial

/-! ## The invariant -/

/-- Every element on its way to the file is the entry of a call, or the `EOF`. -/
structure Sourced (calls : List LogCall) (s : State) : Prop where
  queued : ∀ e ∈ s.logQueue, e = eof ∨ ∃ c ∈ calls, e = logEntry c
  held : ∀ e, (s.consumer 0).hand = some e → ∃ c ∈ calls, e = logEntry c

/-- How far `closeLogs` is, and what the file and the consumer are then. -/
def Phase (calls : List LogCall) (s : State) : Prop :=
  match s.hook 0 with
  | .testing | .appending => Open calls s.file
  | .setting | .adding 1 => Closed calls s.file ∧ Sealed s
  | .adding 0 => Closed calls s.file ∧ Ended s
  | .adding (_ + 2) => False
  | .finished => Open calls s.file ∨ Closed calls s.file ∧ Ended s

theorem Phase.grammar (h : Phase calls s) : Grammar calls s.file := by
  unfold Phase at h
  split at h
  · exact Or.inl h
  · exact Or.inl h
  · exact Or.inr h.1
  · exact Or.inr h.1
  · exact Or.inr h.1
  · exact h.elim
  · exact h.imp_right And.left

/-- A step away from the hook and from the file. -/
theorem Phase.keep (h : Phase calls s) (hh : s'.hook = s.hook) (hf : s'.file = s.file)
    (hsealed : (s.hook 0).closing → Sealed s → Sealed s') (hended : Ended s → Ended s') :
    Phase calls s' := by
  unfold Phase at h ⊢
  rw [hh, hf]
  split at h
  · exact h
  · exact h
  · exact ⟨h.1, hsealed (by simp [*, Hook.closing]) h.2⟩
  · exact ⟨h.1, hsealed (by simp [*, Hook.closing]) h.2⟩
  · exact ⟨h.1, hended h.2⟩
  · exact h
  · exact h.imp_right fun ⟨hc, he⟩ => ⟨hc, hended he⟩

/-- The consumer still has something to write, so the file is open. -/
theorem Phase.write (h : Phase calls s) (hsealed : ¬ Sealed s) (hended : ¬ Ended s)
    (hh : s'.hook = s.hook) {c : LogCall} (hc : c ∈ calls)
    (hf : s'.file = s.file ++ [.entry (logEntry c)]) : Phase calls s' := by
  unfold Phase at h ⊢
  rw [hh, hf]
  split at h
  · exact h.append_entry hc
  · exact h.append_entry hc
  · exact absurd h.2 hsealed
  · exact absurd h.2 hsealed
  · exact absurd h.2 hended
  · exact h
  · rcases h with h | h
    · exact Or.inl (h.append_entry hc)
    · exact absurd h.2 hended

/-- A step of the consumer that does not write. -/
theorem Phase.consume (h : Phase calls s) (hfailed : s.consumer 0 ≠ .failed)
    (hstopped : s.consumer 0 ≠ .stopped) (hh : s'.hook = s.hook) (hf : s'.file = s.file)
    (hsealed : (s.consumer 0).hand = none → s.logQueue = [] → Sealed s')
    (hended : ∀ q, (s.consumer 0).hand = none → s.logQueue = eof :: q → Ended s') :
    Phase calls s' := by
  apply h.keep hh hf
  · rintro - (hc | ⟨hhand, hq⟩)
    · exact absurd hc hfailed
    · exact hsealed hhand hq
  · rintro (hc | hc | ⟨hhand, q, hq⟩)
    · exact absurd hc hfailed
    · exact absurd hc hstopped
    · exact hended q hhand hq

theorem not_sealed_of_writing {e : Text} (h : s.consumer 0 = .writing e) : ¬ Sealed s := by
  simp [Sealed, h, Consumer.hand]

theorem not_ended_of_writing {e : Text} (h : s.consumer 0 = .writing e) : ¬ Ended s := by
  simp [Ended, h, Consumer.hand]

/-- A step of `closeLogs`. -/
theorem Phase.hook_step (h : Phase calls s) (ha : QuietClose s (.hook 0))
    (hs : Step (serverConfig calls) s (.hook 0) s') : Phase calls s' := by
  unfold Phase at h
  cases hs with
  | test _ at_ =>
    rw [at_] at h
    simp only [Phase, State.setHook_hook, Function.update_self]
    split_ifs
    · exact Or.inl h
    · exact h
  | append _ at_ =>
    rw [at_] at h
    simp only [Phase, State.setHook_hook, Function.update_self]
    exact ⟨⟨_, h, rfl⟩, ha at_⟩
  | setClosed _ at_ =>
    rw [at_] at h
    simp only [Phase, State.setHook_hook, Function.update_self, numConsumers]
    exact h
  | @addEof _ n _ at_ =>
    rw [at_] at h
    cases n with
    | zero =>
      simp only [Phase, State.setHook_hook, Function.update_self]
      refine ⟨h.1, ?_⟩
      rcases h.2 with hc | ⟨hhand, hq⟩
      · exact Or.inl hc
      · exact Or.inr (Or.inr ⟨hhand, [], by simp [hq]⟩)
    | succ n => exact h.elim
  | exit _ at_ =>
    rw [at_] at h
    simp only [Phase, State.setHook_hook, Function.update_self]
    exact Or.inr h

theorem Phase.of_step (h : Phase calls s) (hsrc : Sourced calls s) (ha : QuietClose s a)
    (hs : step (serverConfig calls) s a = some s') : Phase calls s' := by
  have hstep := step_cases hs
  cases step_cases hs with
  | call | lockProducer | release | unlockProducer | unlockProducerIllegal =>
    exact h.keep rfl rfl (fun _ hsealed => hsealed) fun hended => hended
  | @add i c hi hc at_ =>
    refine h.keep rfl rfl (fun hclosing _ => Or.inl (ha at_ hclosing)) ?_
    -- The entry comes after the `EOF`.
    rintro (hfail | hstop | ⟨hhand, q, hq⟩)
    · exact Or.inl hfail
    · exact Or.inr (Or.inl hstop)
    · exact Or.inr (Or.inr ⟨hhand, q ++ [logEntry c], by simp [hq]⟩)
  | open_ hj at_ | acquire hj at_ | lockConsumer hj at_ | unlockNull hj at_ =>
    obtain rfl := Nat.lt_one_iff.1 hj
    refine h.consume (by simp [at_]) (by simp [at_]) rfl rfl (fun _ hq => ?_) fun q _ hq => ?_
    · exact Or.inr ⟨by simp [Consumer.hand], hq⟩
    · exact Or.inr (Or.inr ⟨by simp [Consumer.hand], q, hq⟩)
  | unlockConsumerIllegal hj at_ | openFails hj at_ | writeFails hj at_ =>
    obtain rfl := Nat.lt_one_iff.1 hj
    refine h.consume (by simp [at_]) (by simp [at_]) rfl rfl (fun _ _ => ?_) fun _ _ _ => ?_
    · exact Or.inl (by simp)
    · exact Or.inl (by simp)
  | pollNull hj at_ empty =>
    obtain rfl := Nat.lt_one_iff.1 hj
    refine h.consume (by simp [at_]) (by simp [at_]) rfl rfl (fun _ hq => ?_) fun q _ hq => ?_
    · exact Or.inr ⟨by simp [Consumer.hand], hq⟩
    · simp [empty] at hq
  | pollEof hj at_ queue =>
    obtain rfl := Nat.lt_one_iff.1 hj
    refine h.consume (by simp [at_]) (by simp [at_]) rfl rfl (fun _ hq => ?_) fun _ _ _ => ?_
    · simp [queue] at hq
    · exact Or.inr (Or.inl (by simp))
  | poll hj at_ queue he =>
    obtain rfl := Nat.lt_one_iff.1 hj
    refine h.consume (by simp [at_]) (by simp [at_]) rfl rfl (fun _ hq => ?_) fun _ _ hq => ?_
    · simp [queue] at hq
    · exact absurd (List.cons.inj (queue.symm.trans hq)).1 he
  | unlockEntry hj at_ =>
    obtain rfl := Nat.lt_one_iff.1 hj
    refine h.consume (by simp [at_]) (by simp [at_]) rfl rfl (fun hhand _ => ?_) fun _ hhand _ => ?_
    all_goals simp [at_, Consumer.hand] at hhand
  | @write j e hj at_ =>
    obtain rfl := Nat.lt_one_iff.1 hj
    obtain ⟨c, hc, rfl⟩ := hsrc.held e (by simp [at_, Consumer.hand])
    exact h.write (not_sealed_of_writing at_) (not_ended_of_writing at_) rfl hc rfl
  | test hk | append hk | setClosed hk | addEof hk | exit hk =>
    obtain rfl := Nat.lt_one_iff.1 hk
    exact h.hook_step ha hstep
  | appendFails hk at_ =>
    obtain rfl := Nat.lt_one_iff.1 hk
    unfold Phase at h
    rw [at_] at h
    simp only [Phase, State.setHook_hook, Function.update_self]
    exact Or.inl h

theorem Sourced.init : Sourced calls State.init := ⟨by simp [State.init], by
  intro e he
  cases he⟩

/-- A step of a consumer other than `poll` gives its hand what was there or nothing. -/
theorem Sourced.of_step (h : Sourced calls s) (hs : step (serverConfig calls) s a = some s') :
    Sourced calls s' := by
  cases step_cases hs with
  | call | lockProducer | release | unlockProducer | unlockProducerIllegal =>
    exact ⟨h.queued, h.held⟩
  | @add i c hi hc at_ =>
    refine ⟨fun e he => ?_, h.held⟩
    rcases List.mem_append.1 he with he | he
    · exact h.queued e he
    · exact Or.inr ⟨c, List.mem_of_getElem? hc, List.mem_singleton.1 he⟩
  | open_ hj | acquire hj | lockConsumer hj | pollNull hj | unlockNull hj | unlockConsumerIllegal hj
  | write hj | openFails hj | writeFails hj =>
    obtain rfl := Nat.lt_one_iff.1 hj
    exact ⟨h.queued, by simp [Consumer.hand]⟩
  | pollEof hj _ queue =>
    obtain rfl := Nat.lt_one_iff.1 hj
    refine ⟨fun e he => h.queued e ?_, by simp [Consumer.hand]⟩
    exact queue ▸ List.mem_cons_of_mem _ he
  | @poll j e q hj _ queue he =>
    obtain rfl := Nat.lt_one_iff.1 hj
    refine ⟨fun e he => h.queued e (queue ▸ List.mem_cons_of_mem _ he), fun d hd => ?_⟩
    obtain rfl : e = d := by simpa [Consumer.hand] using hd
    exact (h.queued e (queue ▸ List.mem_cons_self)).resolve_left he
  | @unlockEntry j e lk hj at_ =>
    obtain rfl := Nat.lt_one_iff.1 hj
    refine ⟨h.queued, fun d hd => h.held d ?_⟩
    rw [at_]
    simpa [Consumer.hand] using hd
  | test | append | setClosed | exit | appendFails => exact ⟨h.queued, h.held⟩
  | addEof =>
    refine ⟨fun e he => ?_, h.held⟩
    rcases List.mem_append.1 he with he | he
    · exact h.queued e he
    · exact Or.inl (List.mem_singleton.1 he)

/-! ## Runs -/

theorem phase_of_run {as : List Action}
    (hm : Meets (step (serverConfig calls)) QuietClose State.init as)
    (h : run (step (serverConfig calls)) State.init as = some s) :
    Sourced calls s ∧ Phase calls s :=
  guarded_run_invariant (I := fun s => Sourced calls s ∧ Phase calls s)
    (fun _ _ _ h ha hs => ⟨h.1.of_step hs, h.2.of_step h.1 ha hs⟩)
    ⟨Sourced.init, Open.init⟩ hm h

/-- The bytes of a write. -/
def Block.bytes : Block → Bytes
  | .header => Text.utf8 LogsHandler.header
  | .entry text => Text.utf8 text
  | .trailer => Text.utf8 LogsHandler.trailer

/-- In every run in which `closeLogs` closes quietly the file has its form at every moment. -/
theorem grammar_of_quietClose (calls : List LogCall) (as : List Action) (s : State)
    (hm : Meets (step (serverConfig calls)) QuietClose State.init as)
    (h : run (step (serverConfig calls)) State.init as = some s) : Grammar calls s.file :=
  (phase_of_run hm h).2.grammar

/-- A request is logged, its entry is written, and then `closeLogs` runs to its end. -/
def quietRun : List Action :=
  List.replicate 5 (.producer 0) ++ List.replicate 6 (.consumer 0) ++ List.replicate 5 (.hook 0)

theorem grammar_of_quietClose_quietRun :
    ∃ s, run (step (serverConfig [sampleCall])) State.init quietRun = some s ∧
      Grammar [sampleCall] s.file :=
  ⟨_, rfl, grammar_of_quietClose [sampleCall] quietRun _ (by decide) rfl⟩

/-- The consumer has an entry in its hand when `closeLogs` appends the trailer. -/
theorem entry_after_trailer :
    ¬ ∀ as s, run (step (serverConfig [sampleCall])) State.init as = some s →
      Grammar [sampleCall] s.file := by
  intro h
  have hrun := h (List.replicate 4 (.producer 0) ++ List.replicate 4 (.consumer 0) ++
    List.replicate 2 (.hook 0) ++ List.replicate 2 (.consumer 0)) _ rfl
  have hfile : ¬ Grammar [sampleCall] [.header, .trailer, .entry (logEntry sampleCall)] := by
    rintro (⟨cs, -, hcs⟩ | ⟨front, -, hfront⟩)
    · cases cs <;> simp at hcs
    · have := congrArg List.getLast? hfront
      simp at this
  exact hfile hrun

end LogQueue
