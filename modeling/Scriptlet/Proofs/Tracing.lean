import Scriptlet.Proofs.ScopeFrames

/-!
Tracing does not change what a program does. Two runs of one program at different levels of tracing go in
step: their machines differ at most in what was traced, and each has the messages of one common log up to
its own level (`InStep`). Each access to the machine keeps the two runs in step, since none looks at what
was traced, and the plans of both runs are the same.

The file of messages is opened and closed by each run. It holds all messages that were ever traced, as
only the first one finds it not yet started (`Recorded`).
-/

namespace Scriptlet

/-! ## Machines in step -/

/-- How a run is traced: at which level, and behind which messages of earlier runs. -/
structure Tracer where
  level : Int
  before : List Message

/-- The messages of a log that are traced at a level. -/
def kept (level : Int) (log : List Message) : List Message :=
  log.filter fun message => message.topic.level ≤ level

/-- The same way of running, traced at a level. -/
def Config.traced (cfg : Config) (level : Int) : Config :=
  { cfg with debugLevel := level }

def Tracer.config (o : Tracer) (cfg : Config) : Config :=
  cfg.traced o.level

def Tracer.sees (o : Tracer) (log : List Message) : List Message :=
  o.before ++ kept o.level log

/-- The machine with another trace. -/
def Machine.retraced (m : Machine) (messages : Array Message) (file : TraceFile) : Machine :=
  { m with messages := messages, traceFile := file }

/-- Two machines that differ at most in what was traced, with the messages of one log. -/
structure InStep (o o' : Tracer) (m m' : Machine) : Prop where
  same : ∃ messages file, m' = m.retraced messages file
  log : ∃ log, m.messages.toList = o.sees log ∧ m'.messages.toList = o'.sees log

/-- A change of machines that does not look at what was traced. -/
def Untraced (f : Machine → Machine) : Prop :=
  ∀ m messages file, f (m.retraced messages file) = (f m).retraced messages file

variable {o o' : Tracer} {m m' : Machine}

theorem Untraced.messages_eq {f : Machine → Machine} (hf : Untraced f) (m : Machine) :
    (f m).messages = m.messages := by
  have h := congrArg Machine.messages (hf m m.messages m.traceFile)
  exact h

theorem InStep.change (h : InStep o o' m m') {f : Machine → Machine} (hf : Untraced f) :
    InStep o o' (f m) (f m') := by
  obtain ⟨⟨messages, file, rfl⟩, log, hleft, hright⟩ := h
  refine ⟨⟨messages, file, hf ..⟩, log, ?_, ?_⟩
  · rw [hf.messages_eq, hleft]
  · rw [hf.messages_eq, hright]

theorem Topic.level_pos (topic : Topic) : 0 < topic.level := by
  cases topic <;> decide

/-- A message is traced by those whose level reaches its topic. -/
theorem Eval.debug_eq (cfg : Config) (topic : Topic) (text : Unit → String) (m : Machine) :
    Eval.debug cfg topic text m =
      .ok () (if topic.level ≤ cfg.debugLevel then m.record ⟨topic, text ()⟩ else m) := by
  unfold Eval.debug
  by_cases h : topic.level ≤ cfg.debugLevel
  · rw [if_pos ⟨Int.lt_of_lt_of_le topic.level_pos h, h⟩, if_pos h]
    rfl
  · rw [if_neg fun hand => h hand.2, if_neg h]
    rfl

theorem kept_concat (level : Int) (log : List Message) (message : Message) :
    kept level (log ++ [message]) =
      kept level log ++ if message.topic.level ≤ level then [message] else [] := by
  rw [kept, List.filter_append, ← kept]
  split <;> rename_i h <;> simp [h]

/-- The log grows by the message, whether it is traced or not. -/
theorem InStep.record (h : InStep o o' m m') (message : Message) :
    InStep o o' (if message.topic.level ≤ o.level then m.record message else m)
      (if message.topic.level ≤ o'.level then m'.record message else m') := by
  have hmessages : ∀ (o : Tracer) (m : Machine) (log : List Message), m.messages.toList = o.sees log →
      (if message.topic.level ≤ o.level then m.record message else m).messages.toList =
        o.sees (log ++ [message]) := by
    intro o m log hm
    rw [Tracer.sees, kept_concat, ← List.append_assoc, ← Tracer.sees, ← hm]
    split
    · exact Array.toList_push
    · exact (List.append_nil _).symm
  obtain ⟨⟨messages, file, rfl⟩, log, hleft, hright⟩ := h
  refine ⟨?_, log ++ [message], hmessages o m log hleft, hmessages o' _ log hright⟩
  split <;> split <;> exact ⟨_, _, rfl⟩

/-! ## Computations in step -/

variable {α β : Type}

/-- The same result, on machines in step. -/
inductive EndInStep (o o' : Tracer) :
    EStateM.Result Interrupt Machine α → EStateM.Result Interrupt Machine α → Prop
  | ok (a : α) {m m' : Machine} (h : InStep o o' m m') : EndInStep o o' (.ok a m) (.ok a m')
  | error (i : Interrupt) {m m' : Machine} (h : InStep o o' m m') :
    EndInStep o o' (.error i m) (.error i m')

/-- Computations that go in step. -/
def Parallel (o o' : Tracer) (x y : Eval α) : Prop :=
  ∀ m m', InStep o o' m m' → EndInStep o o' (x m) (y m')

namespace Parallel

theorem pure (a : α) : Parallel o o' (Pure.pure a) (Pure.pure a) :=
  fun _ _ h => .ok a h

theorem throw (i : Interrupt) : Parallel o o' (MonadExcept.throw i : Eval α) (MonadExcept.throw i) :=
  fun _ _ h => .error i h

variable {x y : Eval α} {f g : α → Eval β}

theorem quiet (h : x.Quiet) : Parallel o o' x x := by
  rcases h.eq_pure_or_throw with ⟨a, rfl⟩ | ⟨i, rfl⟩
  · exact pure a
  · exact throw i

theorem bind_of (h : Parallel o o' x y) (hf : ∀ a m m', x m = .ok a m' → Parallel o o' (f a) (g a)) :
    Parallel o o' (x >>= f) (y >>= g) := by
  intro m m' hm
  have hr := h m m' hm
  generalize hx : x m = r at hr
  generalize hy : y m' = r' at hr
  cases hr with
  | ok a hn =>
    rw [Eval.bind_of_ok hx, Eval.bind_of_ok hy]
    exact hf a _ _ hx _ _ hn
  | error i hn =>
    rw [Eval.bind_of_error hx, Eval.bind_of_error hy]
    exact .error i hn

theorem bind (h : Parallel o o' x y) (hf : ∀ a, Parallel o o' (f a) (g a)) :
    Parallel o o' (x >>= f) (y >>= g) :=
  h.bind_of fun a _ _ _ => hf a

theorem ite {p : Prop} [Decidable p] {x' y' : Eval α} (hx : Parallel o o' x x') (hy : Parallel o o' y y') :
    Parallel o o' (if p then x else y) (if p then x' else y') := by
  split
  · exact hx
  · exact hy

/-- The machine is looked at, but not at what was traced. -/
theorem get_bind {f g : Machine → Eval α} (h : ∀ m, Parallel o o' (f m) (g m))
    (hg : ∀ m messages file, g (m.retraced messages file) = g m) :
    Parallel o o' (MonadState.get >>= f) (MonadState.get >>= g) := by
  intro m m' hm
  obtain ⟨messages, file, rfl⟩ := hm.same
  show EndInStep o o' (f m m) (g (m.retraced messages file) _)
  rw [hg]
  exact h m m _ hm

theorem change {f : Machine → Machine} (hf : Untraced f) :
    Parallel o o' (modify f : Eval Unit) (modify f) :=
  fun _ _ h => .ok () (h.change hf)

theorem located (t : Tree) (h : Parallel o o' x y) :
    Parallel o o' (Eval.located t x) (Eval.located t y) := by
  intro m m' hm
  have hr := h m m' hm
  unfold Eval.located
  generalize x m = r at hr
  generalize y m' = r' at hr
  cases hr with
  | ok a hn => exact .ok a hn
  | error i hn => cases i <;> exact .error _ hn

theorem deeper (t : Tree) (h : Parallel o o' x y) :
    Parallel o o' (Eval.deeper t x) (Eval.deeper t y) := by
  intro m m' hm
  have hup := hm.change (f := fun m => { m with callDepth := m.callDepth + 1 }) fun _ _ _ => rfl
  have hr := h _ _ hup
  have hdown : ∀ {n n' : Machine}, InStep o o' n n' →
      InStep o o' { n with callDepth := n.callDepth - 1 } { n' with callDepth := n'.callDepth - 1 } :=
    fun hn => hn.change (f := fun n => { n with callDepth := n.callDepth - 1 }) fun _ _ _ => rfl
  unfold Eval.deeper
  generalize x { m with callDepth := m.callDepth + 1 } = r at hr
  generalize y { m' with callDepth := m'.callDepth + 1 } = r' at hr
  cases hr with
  | ok a hn => exact .ok a (hdown hn)
  | error i hn => exact .error _ (hdown hn)

/-- What traces nothing. -/
theorem talks {throws : Interrupt → Prop} {wanted : α → Prop} (h : x.Talks False throws wanted) :
    Parallel o o' x x := by
  induction h with
  | pure => exact pure _
  | throw => exact throw _
  | write => exact change fun _ _ _ => rfl
  | readLine =>
    intro m m' hm
    obtain ⟨messages, file, rfl⟩ := hm.same
    exact .ok _ (hm.change (f := fun m => { m with
      input := (m.input.dropWhile (· != '\n')).drop 1
      linesRead := m.linesRead + 1 }) fun _ _ _ => rfl)
  | readClock =>
    intro m m' hm
    obtain ⟨messages, file, rfl⟩ := hm.same
    exact .ok _ (hm.change (f := fun m => { m with clockReads := m.clockReads + 1 }) fun _ _ _ => rfl)
  | debug h => exact h.elim
  | depth _ ih => exact get_bind (fun m => ih m.callDepth) fun _ _ _ => rfl
  | bind hx _ ihx ihf => exact ihx.bind_of fun a _ _ hr => ihf a (hx.gives hr)

/-! ## Accesses -/

theorem openScope (parent : Nat) : Parallel o o' (Eval.openScope parent) (Eval.openScope parent) := by
  intro m m' hm
  obtain ⟨messages, file, rfl⟩ := hm.same
  exact .ok _ (hm.change (f := fun m => { m with scopes := (m.scopes.push (some parent)).2 })
    fun _ _ _ => rfl)

theorem define (s : Nat) (name : Tree) (value : Value) :
    Parallel o o' (Eval.define s name value) (Eval.define s name value) :=
  (quiet (.nameOf name)).bind fun _ => change fun _ _ _ => rfl

theorem lookup (s : Nat) (name : Tree) : Parallel o o' (Eval.lookup s name) (Eval.lookup s name) := by
  apply (quiet (.nameOf name)).bind
  intro key
  apply get_bind _ fun _ _ _ => rfl
  intro m
  split
  · exact pure _
  · exact throw _

theorem assign (s : Nat) (name : Tree) (value : Value) :
    Parallel o o' (Eval.assign s name value) (Eval.assign s name value) := by
  apply (quiet (.nameOf name)).bind
  intro key
  apply get_bind _ fun _ _ _ => rfl
  intro m
  split
  · exact (change fun _ _ _ => rfl).bind fun _ => pure _
  · exact throw _

theorem debug (cfg : Config) (topic : Topic) (text : Unit → String) :
    Parallel o o' (Eval.debug (o.config cfg) topic text) (Eval.debug (o'.config cfg) topic text) := by
  intro m m' hm
  rw [Eval.debug_eq, Eval.debug_eq]
  exact .ok () (hm.record ⟨topic, text ()⟩)

theorem access (cfg : Config) (access : Access) :
    Parallel o o' (access.run (o.config cfg)) (access.run (o'.config cfg)) := by
  cases access with
  | openScope parent => exact openScope parent
  | define s name value => exact define s name value
  | lookup t s name => exact located t (lookup s name)
  | assign t s name value => exact located t (assign s name value)
  | number =>
    intro m m' hm
    obtain ⟨messages, file, rfl⟩ := hm.same
    exact .ok _ (hm.change (f := fun m => { m with nextClosure := m.nextClosure + 1 }) fun _ _ _ => rfl)
  | native f args =>
    have hsame : Native.call (o'.config cfg) f args = Native.call (o.config cfg) f args := by
      cases f <;> rfl
    show Parallel o o' (Native.call (o.config cfg) f args) (Native.call (o'.config cfg) f args)
    rw [hsame]
    exact talks (.native _ f args)
  | debug topic text => exact debug cfg topic fun _ => text

/-! ## Rules -/

theorem depthCheck (limit : Option Int) (t : Tree) {k k' : Eval Unit} (hk : Parallel o o' k k') :
    Parallel o o'
      (do match limit with
          | some limit => if limit ≤ (← get).callDepth then Eval.raiseAt t (.callDepth limit)
          | none => Pure.pure ()
          k)
      (do match limit with
          | some limit => if limit ≤ (← get).callDepth then Eval.raiseAt t (.callDepth limit)
          | none => Pure.pure ()
          k') := by
  cases limit with
  | none => exact hk
  | some limit =>
    apply get_bind _ fun _ _ _ => rfl
    intro m
    exact ite ((quiet (.raiseAt t _)).bind fun _ => hk) hk

theorem checkCall (cfg : Config) (t : Tree) (f : Value) (args : List Value) :
    Parallel o o' (Eval.checkCall (o.config cfg) t f args) (Eval.checkCall (o'.config cfg) t f args) := by
  apply (quiet (.signature t f)).bind
  rintro ⟨name, arity⟩
  have hdepth := fun text => depthCheck cfg.maxCallDepth t (debug cfg .call text : Parallel o o' _ _)
  cases arity with
  | none => exact hdepth _
  | some expected => exact ite ((quiet (.raiseAt t _)).bind fun _ => hdepth _) (hdepth _)

theorem plan {cfg : Config} {room : Nat}
    (hjobs : ∀ job : Job, Parallel o o' (job.run (o.config cfg) room) (job.run (o'.config cfg) room))
    (plan : Plan α) : Parallel o o' (plan.run (o.config cfg) room) (plan.run (o'.config cfg) room) := by
  induction plan with
  | give a => exact pure a
  | stop i => exact throw i
  | ask job next ih => exact (hjobs job).bind ih
  | act access next ih => exact (Parallel.access cfg access).bind ih

theorem job (cfg : Config) (room : Nat) (job : Job) :
    Parallel o o' (job.run (o.config cfg) room) (job.run (o'.config cfg) room) := by
  induction room generalizing job with
  | zero =>
    intro m m' hm
    rw [Job.run_zero, Job.run_zero]
    exact .error _ hm
  | succ room ih =>
    rw [Job.run_succ, Job.run_succ]
    cases job with
    | evaluate | executeAll | execute => exact plan ih _
    | call t f args => exact (checkCall cfg t f args).bind fun _ => deeper t (plan ih _)

end Parallel

/-! ## Programs -/

theorem InStep.endTrace (h : InStep o o' m m') : InStep o o' m.endTrace m'.endTrace := by
  obtain ⟨⟨messages, file, rfl⟩, log⟩ := h
  exact ⟨⟨messages, file.closed, rfl⟩, log⟩

theorem Parallel.program (o o' : Tracer) (cfg : Config) (s : Nat) (t : Tree) :
    Parallel o o' (Eval.program (o.config cfg) s t) (Eval.program (o'.config cfg) s t) := by
  have hbody : Parallel o o'
      (do Eval.executeAll (o.config cfg) (o.config cfg).room s (← Eval.need t.body?))
      (do Eval.executeAll (o'.config cfg) (o'.config cfg).room s (← Eval.need t.body?)) :=
    (Parallel.quiet (.need _)).bind fun body => Parallel.job cfg cfg.room (.executeAll s body)
  intro m m' hm
  have hr := hbody m m' hm
  unfold Eval.program
  generalize (do Eval.executeAll (o.config cfg) (o.config cfg).room s (← Eval.need t.body?) :
    Eval Completion) m = r at hr
  generalize (do Eval.executeAll (o'.config cfg) (o'.config cfg).room s (← Eval.need t.body?) :
    Eval Completion) m' = r' at hr
  cases hr with
  | ok done hn =>
    cases done with
    | normal => exact .ok () hn.endTrace
    | returned value statement => exact Parallel.quiet (.raiseAt statement _) _ _ hn.endTrace
  | error i hn =>
    cases i with
    | noRoom => exact Parallel.quiet (.raiseAt t _) _ _ hn.endTrace
    | error e => exact .error _ hn.endTrace
    | fault f => exact .error _ hn.endTrace
    | noFuel => exact .error _ hn.endTrace

/-- Two runs of one program in step have the same outcome. -/
theorem InStep.run (h : InStep o o' m m') (cfg : Config) (t : Tree) (s : Nat) :
    (m'.run (o'.config cfg) t s).1 = (m.run (o.config cfg) t s).1 ∧
      InStep o o' (m.run (o.config cfg) t s).2 (m'.run (o'.config cfg) t s).2 := by
  have hr := Parallel.program o o' cfg s t m m' h
  unfold Machine.run
  generalize Eval.program (o.config cfg) s t m = r at hr
  generalize Eval.program (o'.config cfg) s t m' = r' at hr
  cases hr with
  | ok a hn => exact ⟨rfl, hn⟩
  | error i hn => exact ⟨rfl, hn⟩

/-! ## Runs one after another -/

/-- Nothing was traced yet, and a file of the name of the trace may be there. -/
def Machine.untraced (m : Machine) (stale : Option String := none) : Machine :=
  m.retraced #[] { content := stale }

namespace Machine

/-- Runs programs one after another, each in a scope, whatever the outcome of the others. -/
def runs (m : Machine) (cfg : Config) : List (Tree × Nat) → List Outcome × Machine
  | [] => ([], m)
  | (t, s) :: rest =>
    let (outcome, m) := m.run cfg t s
    let (outcomes, m) := runs m cfg rest
    (outcome :: outcomes, m)

/-- The messages of each of these runs, as if it were the only one that is traced. -/
def traces (m : Machine) (cfg : Config) : List (Tree × Nat) → List (List Message)
  | [] => []
  | (t, s) :: rest =>
    (m.untraced.run cfg t s).2.messages.toList :: traces (m.run cfg t s).2 cfg rest

end Machine

theorem InStep.runs (h : InStep o o' m m') (cfg : Config) (programs : List (Tree × Nat)) :
    (m'.runs (o'.config cfg) programs).1 = (m.runs (o.config cfg) programs).1 ∧
      InStep o o' (m.runs (o.config cfg) programs).2 (m'.runs (o'.config cfg) programs).2 := by
  induction programs generalizing m m' with
  | nil => exact ⟨rfl, h⟩
  | cons program rest ih =>
    obtain ⟨hfirst, hnext⟩ := h.run cfg program.1 program.2
    obtain ⟨hrest, hend⟩ := ih hnext
    exact ⟨congrArg₂ List.cons hfirst hrest, hend⟩

/-- Without what was traced before, a run does the same. -/
theorem inStep_untraced (level : Int) (m : Machine) :
    InStep ⟨level, m.messages.toList⟩ ⟨level, []⟩ m m.untraced :=
  ⟨⟨_, _, rfl⟩, [], (List.append_nil _).symm, rfl⟩

theorem InStep.untraced {k k' : Int} {before before' : List Message}
    (h : InStep ⟨k, before⟩ ⟨k', before'⟩ m m') : InStep ⟨k, []⟩ ⟨k', []⟩ m.untraced m'.untraced := by
  obtain ⟨⟨messages, file, rfl⟩, -⟩ := h
  exact ⟨⟨_, _, rfl⟩, [], rfl, rfl⟩

/-- Each run adds its messages to those before. -/
theorem Machine.run_messages (m : Machine) (cfg : Config) (t : Tree) (s : Nat) :
    (m.run cfg t s).2.messages.toList =
      m.messages.toList ++ (m.untraced.run cfg t s).2.messages.toList := by
  obtain ⟨-, -, log, hleft, hright⟩ := (inStep_untraced cfg.debugLevel m).run cfg t s
  exact hleft.trans (congrArg _ hright.symm)

theorem Machine.runs_messages (m : Machine) (cfg : Config) (programs : List (Tree × Nat)) :
    (m.runs cfg programs).2.messages.toList =
      m.messages.toList ++ (m.traces cfg programs).flatten := by
  induction programs generalizing m with
  | nil => exact (List.append_nil _).symm
  | cons program rest ih =>
    rw [Machine.traces, List.flatten_cons, ← List.append_assoc, ← Machine.run_messages]
    exact ih _

theorem kept_all (log : List Message) : kept 3 log = log := by
  apply List.filter_eq_self.mpr
  intro message _
  cases message.topic <;> decide

/-- Of the messages at level three, those up to a level are the messages at this level. -/
theorem InStep.traces {k : Int} {before before' : List Message} (cfg : Config)
    (h : InStep ⟨k, before⟩ ⟨3, before'⟩ m m') (programs : List (Tree × Nat)) :
    m.traces (cfg.traced k) programs = (m'.traces (cfg.traced 3) programs).map (kept k) := by
  induction programs generalizing m m' with
  | nil => rfl
  | cons program rest ih =>
    obtain ⟨-, -, log, hleft, hright⟩ := h.untraced.run cfg program.1 program.2
    have hnext := (h.run cfg program.1 program.2).2
    have hfirst : (m.untraced.run (cfg.traced k) program.1 program.2).2.messages.toList =
        kept k (m'.untraced.run (cfg.traced 3) program.1 program.2).2.messages.toList := by
      calc
        _ = kept k log := hleft
        _ = kept k (kept 3 log) := by rw [kept_all]
        _ = _ := congrArg (kept k) hright.symm
    rw [Machine.traces, Machine.traces, List.map_cons, hfirst]
    exact congrArg _ (ih hnext)

/-! ## The file of messages -/

/-- Messages on lines of their own. -/
def linesOf (messages : List Message) : String :=
  String.join (messages.map fun message => message.text ++ "\n")

/-- What is in the file behind some messages. -/
def fileWith (stale : Option String) (messages : List Message) : Option String :=
  if messages = [] then stale else some (linesOf messages)

/-- The file holds all messages. It is as it was found until there is one. -/
structure Recorded (stale : Option String) (m : Machine) : Prop where
  content : m.trace = fileWith stale m.messages.toList
  started : m.traceFile.started = true ↔ m.messages.toList ≠ []
  isOpen : m.traceFile.isOpen = true → m.traceFile.started = true

namespace Recorded

variable {stale : Option String} {own : Nat → Prop}

/-- Opened, the file holds the messages, and nothing of what was found in it. -/
theorem opened (h : Recorded stale m) :
    m.traceFile.opened.content = some (linesOf m.messages.toList) := by
  have hstarted : m.traceFile.started = true → m.traceFile.content = some (linesOf m.messages.toList) := by
    intro hs
    rw [← Machine.trace, h.content, fileWith, if_neg (h.started.mp hs)]
  unfold TraceFile.opened
  split
  · rename_i hopen
    exact hstarted (h.isOpen hopen)
  · cases hs : m.traceFile.started with
    | true => simp [hstarted hs]
    | false =>
      have hnone : m.messages.toList = [] :=
        Decidable.not_not.mp fun hsome => Bool.noConfusion (hs.symm.trans (h.started.mpr hsome))
      rw [hnone]
      rfl

theorem record (h : Recorded stale m) (message : Message) : Recorded stale (m.record message) := by
  have hmessages : (m.record message).messages.toList = m.messages.toList ++ [message] :=
    Array.toList_push
  have hstarted : m.traceFile.opened.started = true := by
    unfold TraceFile.opened
    split
    · exact h.isOpen ‹_›
    · rfl
  constructor
  · show some (m.traceFile.opened.content.getD "" ++ message.text ++ "\n") = _
    rw [hmessages, h.opened]
    simp [fileWith, linesOf, String.join, String.append_assoc]
  · rw [hmessages]
    exact iff_of_true hstarted (by simp)
  · exact fun _ => hstarted

theorem effect {m m' : Machine} (h : Recorded stale m) (step : Effect own m m') : Recorded stale m' := by
  cases step with
  | record _ message => exact h.record message
  | endTrace => exact ⟨h.content, h.started, fun hopen => Bool.noConfusion hopen⟩
  | write | readLine | readClock | depth | number | openScope | define | assign =>
    exact ⟨h.content, h.started, h.isOpen⟩

theorem effects {m m' : Machine} (h : Recorded stale m) (steps : Effects own m m') :
    Recorded stale m' := by
  induction steps with
  | refl => exact h
  | tail _ step ih => exact ih.effect step

theorem run (h : Recorded stale m) (cfg : Config) (t : Tree) (s : Nat) :
    Recorded stale (m.run cfg t s).2 := by
  rw [Machine.run_left]
  exact h.effects (Affects.program cfg (fun _ => True) trivial t m fun _ _ => trivial)

theorem runs (h : Recorded stale m) (cfg : Config) (programs : List (Tree × Nat)) :
    Recorded stale (m.runs cfg programs).2 := by
  induction programs generalizing m with
  | nil => exact h
  | cons program rest ih => exact ih (h.run cfg program.1 program.2)

end Recorded

theorem recorded_untraced (m : Machine) (stale : Option String) : Recorded stale (m.untraced stale) :=
  ⟨rfl, by simp [Machine.untraced, Machine.retraced], fun hopen => Bool.noConfusion hopen⟩

/-- For programs run one after another on a machine, failing ones included: with any two levels of
tracing they have the same outcomes and leave the same output and the same global bindings. The messages
that a run has at a level are those that it has at level three without those of higher levels. The file
holds all messages of all runs in turn, and nothing else unless there is none. -/
theorem runs_traced (m : Machine) (stale : Option String) (cfg : Config) (programs : List (Tree × Nat))
    (level level' : Int) :
    let r := (m.untraced stale).runs (cfg.traced level) programs
    let r' := (m.untraced stale).runs (cfg.traced level') programs
    let messages := (m.untraced stale).traces (cfg.traced level) programs
    (r'.1 = r.1 ∧ r'.2.output = r.2.output ∧ r'.2.globals = r.2.globals) ∧
      messages = ((m.untraced stale).traces (cfg.traced 3) programs).map (kept level) ∧
      r.2.trace = fileWith stale messages.flatten := by
  have hstart : ∀ level level', InStep ⟨level, []⟩ ⟨level', []⟩ (m.untraced stale) (m.untraced stale) :=
    fun level level' => ⟨⟨_, _, rfl⟩, [], rfl, rfl⟩
  refine ⟨?_, (hstart level 3).traces cfg programs, ?_⟩
  · obtain ⟨hout, ⟨_, _, hsame⟩, -⟩ := (hstart level level').runs cfg programs
    have houtput := congrArg Machine.output hsame
    have hglobals := congrArg Machine.globals hsame
    exact ⟨hout, houtput, hglobals⟩
  · have hrecorded := ((recorded_untraced m stale).runs (cfg.traced level) programs).content
    rw [Machine.runs_messages] at hrecorded
    exact hrecorded

end Scriptlet
