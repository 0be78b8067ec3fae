import PaWebServer.Lib.Refinement
import PaWebServer.LogDelivery

/-!
# The log files that can result

A process whose threads all come to their ends leaves a file with one trailer and with entries that
have been logged.  Nothing more is certain: each of these files, with the entries in any order, any
of them missing and the trailer at any place, is what some order of the steps leaves
(`final_files`).
-/

namespace LogQueue

open LogsHandler Transition

variable {calls : List LogCall}

/-! ## Runs that write chosen entries -/

/-- Between two entries: the given producers have finished and no other has been called, the
consumer waits for a permit, and nobody holds a lock. -/
def resting (done : List ℕ) (queue : List Text) (permits : ℕ) (file : List Block) (closed : Bool)
    (hook : Hook) : State where
  logQueue := queue
  permits := permits
  locks _ := .free
  closed := closed
  file := file
  producer i := if i ∈ done then .finished else .uncalled
  consumer := Function.update (fun _ => .opening) 0 .acquiring
  hook := Function.update (fun _ => .testing) 0 hook

section

variable {done : List ℕ} {queue : List Text} {permits : ℕ} {file : List Block} {closed : Bool}
  {hook : Hook}

theorem run_open : run (step (serverConfig calls)) State.init [.consumer 0] =
    some (resting [] [] 0 [.header] false .testing) := by
  have hhook : Function.update (fun _ : ℕ => Hook.testing) 0 .testing = fun _ => .testing :=
    Function.update_eq_self 0 _
  simp only [resting, hhook]
  rfl

/-- A producer runs from its start to its end. -/
theorem run_producer {i : ℕ} {c : LogCall} (hc : calls[i]? = some c) (hi : i ∉ done) :
    run (step (serverConfig calls)) (resting done queue permits file closed hook)
        (List.replicate 5 (.producer i)) =
      some (resting (done ++ [i]) (queue ++ [logEntry c]) (permits + 1) file closed hook) := by
  have hproducer : Function.update (fun k => if k ∈ done then Producer.finished else .uncalled) i
      .finished = fun k => if k ∈ done ∨ k = i then .finished else .uncalled := by
    funext k
    by_cases hk : k = i
    · simp [hk]
    · simp [hk]
  simp [List.replicate, run, step, serverConfig, hc, State.stepProducer, resting, hi,
    State.setProducer, State.setLock, ReentrantLock.acquire_free, ReentrantLock.unlock_acquired,
    producerLock, hproducer]

/-- The consumer takes the first entry of the queue and writes it. -/
theorem run_consumer {e : Text} (he : e ≠ eof) :
    run (step (serverConfig calls)) (resting done (e :: queue) (permits + 1) file closed hook)
        (List.replicate 5 (.consumer 0)) =
      some (resting done queue permits (file ++ [.entry e]) closed hook) := by
  simp [List.replicate, run, step, serverConfig, State.stepConsumer, resting, he, numConsumers,
    State.setConsumer, State.setLock, ReentrantLock.acquire_free, ReentrantLock.unlock_acquired,
    consumerLock]

/-- The consumer takes an `EOF`. -/
theorem run_stop :
    ∃ s, run (step (serverConfig calls))
        (resting done (eof :: queue) (permits + 1) file closed hook)
        (List.replicate 3 (.consumer 0)) = some s ∧ s.consumer 0 = .stopped ∧ s.file = file ∧
          s.producer = (resting done queue permits file closed hook).producer ∧
            s.hook 0 = hook := by
  simp [List.replicate, run, step, serverConfig, State.stepConsumer, resting, numConsumers,
    State.setConsumer, State.setLock, ReentrantLock.acquire_free, consumerLock]

theorem run_append_trailer :
    run (step (serverConfig calls)) (resting done queue permits file false .testing)
        (List.replicate 2 (.hook 0)) =
      some (resting done queue permits (file ++ [.trailer]) false .setting) := by
  simp [List.replicate, run, step, serverConfig, State.stepHook, resting, State.setHook]

theorem run_finish :
    run (step (serverConfig calls)) (resting done queue permits file closed .setting)
        (List.replicate 3 (.hook 0)) =
      some (resting done (queue ++ [eof]) permits file true .finished) := by
  simp [List.replicate, run, step, serverConfig, State.stepHook, resting, State.setHook,
    numConsumers]

/-! ## Runs that write chosen entries -/

/-- The entry of a call. -/
def entryOf (calls : List LogCall) (i : Fin calls.length) : Text := logEntry calls[i]

theorem entryOf_ne_eof (i : Fin calls.length) : entryOf calls i ≠ eof := logEntry_ne_eof _

/-- The producer runs. -/
def addSteps (i : Fin calls.length) : List Action := List.replicate 5 (.producer i)

/-- The producer runs, and the consumer writes its entry. -/
def writeSteps (i : Fin calls.length) : List Action :=
  addSteps i ++ List.replicate 5 (.consumer 0)

theorem run_addSteps {i : Fin calls.length} (hi : i.val ∉ done) :
    run (step (serverConfig calls)) (resting done queue permits file closed hook) (addSteps i) =
      some (resting (done ++ [i.val]) (queue ++ [entryOf calls i]) (permits + 1) file closed
        hook) :=
  run_producer (List.getElem?_eq_getElem i.isLt) hi

/-- The producers that have been called are not those of the rest. -/
theorem notMem_front {is front rest : List (Fin calls.length)} {i : Fin calls.length}
    (hnodup : is.Nodup) (hdone : ∀ k ∈ is, k.val ∉ done) (his : is = front ++ i :: rest) :
    i.val ∉ done ++ front.map Fin.val := by
  subst his
  intro hmem
  rcases List.mem_append.1 hmem with hmem | hmem
  · exact hdone i (by simp) hmem
  · obtain ⟨k, hk, heq⟩ := List.mem_map.1 hmem
    exact (List.nodup_append.1 hnodup).2.2 k hk i List.mem_cons_self (Fin.ext heq)

theorem run_flatMap_addSteps {is : List (Fin calls.length)} (hnodup : is.Nodup)
    (hdone : ∀ i ∈ is, i.val ∉ done) :
    run (step (serverConfig calls)) (resting done queue permits file closed hook)
        (is.flatMap addSteps) =
      some (resting (done ++ is.map Fin.val) (queue ++ is.map (entryOf calls))
        (permits + is.length) file closed hook) := by
  have hrun : run (step (serverConfig calls)) _ (is.flatMap addSteps) = _ :=
    run_flatMap (fun front => resting (done ++ front.map Fin.val)
      (queue ++ front.map (entryOf calls)) (permits + front.length) file closed hook)
      fun front i rest his => by
        rw [run_addSteps (notMem_front hnodup hdone his)]
        simp [Nat.add_assoc]
  simpa using hrun

theorem run_flatMap_writeSteps {is : List (Fin calls.length)} (hnodup : is.Nodup)
    (hdone : ∀ i ∈ is, i.val ∉ done) :
    run (step (serverConfig calls)) (resting done [] 0 file closed hook)
        (is.flatMap writeSteps) =
      some (resting (done ++ is.map Fin.val) [] 0
        (file ++ (is.map (entryOf calls)).map .entry) closed hook) := by
  have hrun : run (step (serverConfig calls)) _ (is.flatMap writeSteps) = _ :=
    run_flatMap (fun front => resting (done ++ front.map Fin.val) [] 0
      (file ++ (front.map (entryOf calls)).map .entry) closed hook)
      fun front i rest his => by
        rw [writeSteps, run_append, run_addSteps (notMem_front hnodup hdone his), Option.bind_some,
          List.nil_append, run_consumer (entryOf_ne_eof i)]
        simp
  simpa using hrun

end

/-! ## Every choice is possible -/

variable {before after missing : List (Fin calls.length)}

/-- The chosen entries are written, one part of them before the trailer and one part after it, and
the others are added behind the `EOF`. -/
def chosenSteps (before after missing : List (Fin calls.length)) : List Action :=
  .consumer 0 :: before.flatMap writeSteps ++ List.replicate 2 (.hook 0) ++
    after.flatMap writeSteps ++ List.replicate 3 (.hook 0) ++ missing.flatMap addSteps

/-- The file with the chosen entries. -/
def fileOf (before after : List Text) : List Block :=
  .header :: (before.map .entry ++ .trailer :: after.map .entry)

theorem succeeds_of_mem_chosenSteps {a : Action} (h : a ∈ chosenSteps before after missing)
    (s : State) : Succeeds s a := by
  cases a with
  | ioError t => simp [chosenSteps, writeSteps, addSteps] at h
  | _ => trivial

theorem run_chosenSteps (hnodup : (before ++ after ++ missing).Nodup) :
    run (step (serverConfig calls)) State.init (chosenSteps before after missing) =
      some (resting ((before ++ after ++ missing).map Fin.val)
        (eof :: missing.map (entryOf calls)) missing.length
        (fileOf (before.map (entryOf calls)) (after.map (entryOf calls))) true .finished) := by
  obtain ⟨hnodup, hmissing, hdisjoint⟩ := List.nodup_append.1 hnodup
  obtain ⟨hbefore, hafter, hdisjoint'⟩ := List.nodup_append.1 hnodup
  have hone : ∀ i ∈ after, i.val ∉ before.map Fin.val := by
    intro i hi hmem
    obtain ⟨k, hk, heq⟩ := List.mem_map.1 hmem
    exact hdisjoint' k hk i hi (Fin.ext heq)
  have htwo : ∀ i ∈ missing, i.val ∉ before.map Fin.val ++ after.map Fin.val := by
    intro i hi hmem
    rw [← List.map_append] at hmem
    obtain ⟨k, hk, heq⟩ := List.mem_map.1 hmem
    exact hdisjoint k hk i hi (Fin.ext heq)
  have hstart : run (step (serverConfig calls)) State.init
      (.consumer 0 :: before.flatMap writeSteps) = some (resting (before.map Fin.val) [] 0
        (.header :: (before.map (entryOf calls)).map .entry) false .testing) := by
    rw [← List.singleton_append, run_append, run_open, Option.bind_some,
      run_flatMap_writeSteps hbefore (by simp)]
    simp
  rw [chosenSteps, run_append, run_append, run_append, run_append, hstart, Option.bind_some,
    run_append_trailer, Option.bind_some, run_flatMap_writeSteps hafter hone, Option.bind_some,
    run_finish, Option.bind_some, run_flatMap_addSteps hmissing htwo]
  simp [fileOf]

/-- Each choice is the outcome of a run in which all threads come to their ends; when entries are
missing, the consumer has paid for the `EOF` with a permit of one of them. -/
theorem exists_run_of_choice
    (hperm : (before ++ after ++ missing).Perm (List.finRange calls.length)) :
    ∃ as s, Meets (step (serverConfig calls)) Succeeds State.init as ∧
      run (step (serverConfig calls)) State.init as = some s ∧ Quiescent (serverConfig calls) s ∧
        s.file = fileOf (before.map (entryOf calls)) (after.map (entryOf calls)) := by
  have hrun := run_chosenSteps (hperm.nodup_iff.2 (List.nodup_finRange _))
  have hsucceeds (more : List Action) (hmore : ∀ a ∈ more, ∀ s, Succeeds s a) :
      Meets (step (serverConfig calls)) Succeeds State.init
        (chosenSteps before after missing ++ more) :=
    meets_of_forall_mem fun a ha s => (List.mem_append.1 ha).elim
      (fun ha => succeeds_of_mem_chosenSteps ha s) (fun ha => hmore a ha s)
  have hfinished : ∀ i < calls.length, i ∈ (before ++ after ++ missing).map Fin.val := by
    intro i hi
    exact List.mem_map.2 ⟨⟨i, hi⟩, hperm.mem_iff.2 (List.mem_finRange _), rfl⟩
  cases hlength : missing.length with
  | zero =>
    have hsteps := hsucceeds [] (by simp)
    rw [List.append_nil] at hsteps
    refine ⟨_, _, hsteps, hrun, ?_, rfl⟩
    refine quiescent_of_ends (fun i hi => if_pos (hfinished i hi)) (fun k hk => ?_) fun j hj => ?_
    · rw [Nat.lt_one_iff.1 hk]
      rfl
    · rw [Nat.lt_one_iff.1 hj]
      exact Or.inr ⟨rfl, hlength⟩
  | succ permits =>
    obtain ⟨s, hstop, hconsumer, hfile, hproducer, hhook⟩ :=
      @run_stop calls ((before ++ after ++ missing).map Fin.val) (missing.map (entryOf calls))
        permits (fileOf (before.map (entryOf calls)) (after.map (entryOf calls))) true .finished
    refine ⟨_, s, hsucceeds (List.replicate 3 (.consumer 0)) (by simp [Succeeds]), ?_, ?_, hfile⟩
    · rw [run_append, hrun, Option.bind_some, hlength]
      exact hstop
    · refine quiescent_of_ends (fun k hk => ?_) (fun k hk => ?_) fun j hj => ?_
      · rw [hproducer]
        exact if_pos (hfinished k hk)
      · rw [Nat.lt_one_iff.1 hk]
        exact hhook
      · rw [Nat.lt_one_iff.1 hj]
        exact Or.inl hconsumer

/-! ## Nothing else is possible -/

/-- Whether the hook has appended the trailer. -/
def Hook.appended : Hook → ℕ
  | .testing | .appending => 0
  | .setting | .adding _ | .finished => 1

/-- The header is the first block only, and the trailer is there when the hook has appended it. -/
structure OneHook (s : State) : Prop where
  header : ∃ rest, s.file = .header :: rest ∧ Block.header ∉ rest
  trailers : trailers s.file = (s.hook 0).appended
  testing : s.hook 0 = .testing → s.closed = false

theorem OneHook.init : OneHook State.init := ⟨⟨[], rfl, by simp⟩, rfl, fun _ => rfl⟩

theorem header_append {file : List Block} {b : Block} (hb : b ≠ .header)
    (h : ∃ rest, file = .header :: rest ∧ Block.header ∉ rest) :
    ∃ rest, file ++ [b] = .header :: rest ∧ Block.header ∉ rest := by
  obtain ⟨rest, rfl, hrest⟩ := h
  exact ⟨rest ++ [b], rfl, by simp [hrest, hb.symm]⟩

theorem OneHook.of_step {s s' : State} {a : Action} (h : OneHook s) (ha : Succeeds s a)
    (hs : step (serverConfig calls) s a = some s') : OneHook s' := by
  have htrailers := h.trailers
  cases step_cases hs with
  | test hk at_ =>
    obtain rfl := Nat.lt_one_iff.1 hk
    refine ⟨h.header, ?_, ?_⟩
    · simpa [State.setHook, at_, h.testing at_, Hook.appended] using htrailers
    · simp [State.setHook, h.testing at_]
  | append hk at_ =>
    obtain rfl := Nat.lt_one_iff.1 hk
    refine ⟨header_append (by simp) h.header, ?_, by simp [State.setHook]⟩
    simpa [State.setHook, at_, Hook.appended] using htrailers
  | setClosed hk at_ | addEof hk at_ | exit hk at_ =>
    obtain rfl := Nat.lt_one_iff.1 hk
    refine ⟨h.header, ?_, by simp [State.setHook]⟩
    simpa [State.setHook, at_, Hook.appended] using htrailers
  | write hj at_ =>
    refine ⟨header_append (by simp) h.header, ?_, h.testing⟩
    simpa [State.setConsumer] using htrailers
  | openFails | writeFails | appendFails => exact ha.elim
  | _ => exact ⟨h.header, h.trailers, h.testing⟩

theorem exists_entries {l : List Block} (hheader : Block.header ∉ l)
    (htrailer : Block.trailer ∉ l) : ∃ es : List Text, l = es.map .entry := by
  induction l with
  | nil => exact ⟨[], rfl⟩
  | cons b l ih =>
    simp only [List.mem_cons, not_or] at hheader htrailer
    obtain ⟨es, rfl⟩ := ih hheader.2 htrailer.2
    cases b with
    | header => exact absurd rfl hheader.1
    | trailer => exact absurd rfl htrailer.1
    | entry e => exact ⟨e :: es, rfl⟩

theorem writtenEntries_fileOf (before after : List Text) :
    writtenEntries (fileOf before after) = before ++ after := by
  simp [writtenEntries, fileOf]

/-- A file that all threads have finished with has one trailer. -/
theorem exists_fileOf {as : List Action} {s : State}
    (hm : Meets (step (serverConfig calls)) Succeeds State.init as)
    (h : run (step (serverConfig calls)) State.init as = some s)
    (hfinished : s.hook 0 = .finished) : ∃ before after, s.file = fileOf before after := by
  have hone : OneHook s :=
    guarded_run_invariant (fun _ _ _ h ha hs => OneHook.of_step h ha hs) OneHook.init hm h
  obtain ⟨rest, hfile, hheader⟩ := hone.header
  have hcount := hone.trailers
  rw [hfinished, hfile] at hcount
  have hcount' : rest.count .trailer = 1 := by simpa [trailers, Hook.appended] using hcount
  have hmem : Block.trailer ∈ rest := List.count_pos_iff.1 (by omega)
  obtain ⟨front, back, rfl⟩ := List.append_of_mem hmem
  simp only [List.count_append, List.count_cons_self, List.mem_append, List.mem_cons,
    not_or] at hcount' hheader
  obtain ⟨before, hbefore⟩ := exists_entries hheader.1 (List.count_eq_zero.1 (by omega))
  obtain ⟨after, hafter⟩ := exists_entries hheader.2.2 (List.count_eq_zero.1 (by omega))
  exact ⟨before, after, by rw [hfile, hbefore, hafter]; rfl⟩

theorem map_entryOf_finRange (calls : List LogCall) :
    (List.finRange calls.length).map (entryOf calls) = calls.map logEntry := by
  have hcalls : (List.finRange calls.length).map (fun i => calls[i]) = calls :=
    List.map_getElem_finRange calls
  exact (List.map_map).symm.trans (congrArg (List.map logEntry) hcalls)

/-- Without I/O failures, the files that a process leaves when it has been shut down and all its
threads have come to their ends are exactly these: the header and one trailer, with any of the
entries that have been logged before it and after it, in any order. -/
theorem final_files (calls : List LogCall) (file : List Block) :
    (∃ as s, Meets (step (serverConfig calls)) Succeeds State.init as ∧
      run (step (serverConfig calls)) State.init as = some s ∧ Quiescent (serverConfig calls) s ∧
        s.file = file) ↔
      ∃ before after, file = fileOf before after ∧
        (before ++ after).Subperm (calls.map logEntry) := by
  constructor
  · rintro ⟨as, s, hm, h, hq, rfl⟩
    obtain ⟨before, after, hfile⟩ := exists_fileOf hm h (hq.hooks 0 Nat.one_pos)
    have hwritten := writtenEntries_subperm h
    rw [hfile, writtenEntries_fileOf] at hwritten
    exact ⟨before, after, hfile, hwritten⟩
  · rintro ⟨before, after, rfl, hsub⟩
    obtain ⟨l, hl, hsublist⟩ := hsub
    obtain ⟨missing, hmissing⟩ := hsublist.exists_perm_append
    have hperm : (before ++ after ++ missing).Perm
        ((List.finRange calls.length).map (entryOf calls)) := by
      rw [map_entryOf_finRange]
      exact (hl.symm.append_right missing).trans hmissing.symm
    -- The producers in the order of the chosen entries.
    obtain ⟨is, his, hchosen⟩ :
        Relation.Comp (· = List.map (entryOf calls) ·) List.Perm (before ++ after ++ missing)
          (List.finRange calls.length) := by
      rw [List.eq_map_comp_perm]
      exact hperm
    obtain ⟨front, third, rfl, hfront, -⟩ := List.append_eq_map_iff.1 his
    obtain ⟨first, second, rfl, rfl, rfl⟩ := List.append_eq_map_iff.1 hfront.symm
    exact exists_run_of_choice hchosen

end LogQueue
