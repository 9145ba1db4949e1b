import CommitGate.Session
import Mathlib.Data.List.Infix

/-! What a run does to a session, step by step. The programs see of a session the commands run so far
and the files, its moment; a run is known by its queries, the commands that it runs, each with the
moment at which it runs. -/
namespace CommitGate

/-- What programs can see of a run. -/
structure Moment where
  past : List Invocation
  tree : FileTree

namespace Moment

def ask (programs : Programs) (command : Command) (m : Moment) : Response × Moment :=
  let answer := programs.answer m.past ⟨command, m.tree⟩
  (answer.response, ⟨m.past ++ [⟨command, m.tree⟩], answer.tree⟩)

theorem tree_ask {command : Command} (h : command.checkoutTarget? = none) (programs : Programs)
    (m : Moment) : (m.ask programs command).2.tree = m.tree :=
  programs.keeps m.past ⟨command, m.tree⟩ h

end Moment

structure Query where
  command : Command
  moment : Moment

namespace Query

variable (programs : Programs)

def response (q : Query) : Response := (q.moment.ask programs q.command).1

def after (q : Query) : Moment := (q.moment.ask programs q.command).2

def Succeeded (q : Query) : Prop := ∃ c, q.response programs = .completed c ∧ c.status = 0

instance (q : Query) : Decidable (q.Succeeded programs) :=
  match h : q.response programs with
  | .notStarted failure => isFalse fun ⟨c, hc, _⟩ => by cases h.symm.trans hc
  | .completed c =>
    decidable_of_iff (c.status = 0) ⟨fun hzero => ⟨c, h, hzero⟩, fun ⟨_, hc, hzero⟩ => by
      cases h.symm.trans hc
      exact hzero⟩

/-- The second word of a command says what is asked of the program. -/
def Asks (q : Query) (word : Text) : Prop := q.command[1]? = some word

instance (q : Query) (word : Text) : Decidable (q.Asks word) :=
  inferInstanceAs (Decidable (_ = _))

theorem Asks.unique {q : Query} {word word' : Text} (h : q.Asks word) (h' : q.Asks word') :
    word = word' :=
  Option.some.inj (h.symm.trans h')

end Query

def queriesFrom (past : List Invocation) : List Invocation → List Query
  | [] => []
  | now :: more => ⟨now.command, past, now.tree⟩ :: queriesFrom (past ++ [now]) more

theorem queriesFrom_append (past a b : List Invocation) :
    queriesFrom past (a ++ b) = queriesFrom past a ++ queriesFrom (past ++ a) b := by
  induction a generalizing past with
  | nil => simp [queriesFrom]
  | cons now more ih => simp [queriesFrom, ih]

def queriesBetween (s s' : Session) : List Query :=
  queriesFrom s.invocations (s'.invocations.drop s.invocations.length)

/-- A run has led from one session to another with these queries. -/
def Ran (s s' : Session) (queries : List Query) : Prop :=
  ∃ more, s'.invocations = s.invocations ++ more ∧ queriesFrom s.invocations more = queries

namespace Ran

variable {s s' s'' : Session} {qs qs' : List Query}

theorem none (h : s'.invocations = s.invocations) : Ran s s' [] := ⟨[], by simp [h], rfl⟩

theorem trans (h : Ran s s' qs) (h' : Ran s' s'' qs') : Ran s s'' (qs ++ qs') := by
  obtain ⟨a, ha, rfl⟩ := h
  obtain ⟨b, hb, rfl⟩ := h'
  exact ⟨a ++ b, by rw [hb, ha, List.append_assoc], by rw [queriesFrom_append, ha]⟩

theorem queriesBetween_eq (h : Ran s s' qs) : queriesBetween s s' = qs := by
  obtain ⟨more, hm, rfl⟩ := h
  rw [queriesBetween, hm, List.drop_left]

end Ran

namespace Session

def moment (s : Session) : Moment := ⟨s.invocations, s.tree⟩

def ending : EStateM.Result Fault Session α → Session
  | .ok _ s => s
  | .error _ s => s

def asked (programs : Programs) (command : Command) (s : Session) : Session :=
  let m := (s.moment.ask programs command).2
  { s with invocations := m.past, tree := m.tree }

theorem invoke_eq (programs : Programs) (command : Command) (s : Session) :
    invoke programs command s =
      .ok (s.moment.ask programs command).1 (s.asked programs command) := rfl

theorem ran_asked (programs : Programs) (command : Command) (s : Session) :
    Ran s (s.asked programs command) [⟨command, s.moment⟩] :=
  ⟨[⟨command, s.tree⟩], rfl, rfl⟩

theorem tree_asked {command : Command} (h : command.checkoutTarget? = none) (programs : Programs)
    (s : Session) : (s.asked programs command).tree = s.tree :=
  Moment.tree_ask h programs s.moment

variable {s s' : Session} {fault : Fault} {α β : Type}

def value? : EStateM.Result Fault Session α → Option α
  | .ok a _ => some a
  | .error _ _ => none

theorem ok_of_value? {r : EStateM.Result Fault Session α} {a : α} (h : value? r = some a) :
    ∃ s', r = .ok a s' := by
  cases r with
  | ok b s' =>
    cases h
    exact ⟨s', rfl⟩
  | error fault s' => cases h

def fault? : EStateM.Result Fault Session α → Option Fault
  | .ok _ _ => none
  | .error fault _ => some fault

theorem error_of_fault? {r : EStateM.Result Fault Session α} (h : fault? r = some fault) :
    ∃ s', r = .error fault s' := by
  cases r with
  | ok b s' => cases h
  | error fault' s' =>
    cases h
    exact ⟨s', rfl⟩

theorem bind_of_ok {x : Action α} {f : α → Action β} {a : α} (h : x s = .ok a s') :
    (x >>= f) s = f a s' := by
  change EStateM.bind x f s = _
  simp [EStateM.bind, h]

theorem bind_of_error {x : Action α} {f : α → Action β} (h : x s = .error fault s') :
    (x >>= f) s = .error fault s' := by
  change EStateM.bind x f s = _
  simp [EStateM.bind, h]

theorem get_bind {f : Session → Action β} : (get >>= f) s = f s s := rfl

theorem setUpLog_ok (asked : Option Text) (s : Session) :
    ∃ level log, setUpLog asked s = .ok () { s with level, log } := by
  rw [setUpLog, get_bind]
  split
  · change ∃ level log, EStateM.bind (modify _) _ s = _
    cases (Log.Setting.ofVariable asked).unknown with
    | none => exact ⟨_, _, rfl⟩
    | some name => exact ⟨_, _, rfl⟩
  · exact ⟨s.level, s.log, rfl⟩

theorem bind_eq_ok {x : Action α} {f : α → Action β} {b : β} :
    (x >>= f) s = .ok b s' ↔ ∃ a t, x s = .ok a t ∧ f a t = .ok b s' := by
  cases h : x s with
  | ok a t => simp [bind_of_ok h]
  | error e t => simp [bind_of_error h]

theorem bind_eq_error {x : Action α} {f : α → Action β} :
    (x >>= f) s = .error fault s' ↔
      x s = .error fault s' ∨ ∃ a t, x s = .ok a t ∧ f a t = .error fault s' := by
  cases h : x s with
  | ok a t => simp [bind_of_ok h]
  | error e t => simp [bind_of_error h]

theorem changeTree_cases (change : FileTree.Change) (s : Session) :
    (∃ tree, changeTree change s = .ok () { s with tree }) ∨
      ∃ refusal tree, changeTree change s = .error (.file refusal) { s with tree } := by
  rw [changeTree]
  split
  · exact .inl ⟨_, rfl⟩
  · exact .inr ⟨_, _, rfl⟩

theorem changeTree_ok {operation : FileTree → Except FileFault FileTree} {tree : FileTree}
    (h : operation s.tree = .ok tree) :
    changeTree (.single operation) s = .ok () { s with tree } := by
  simp only [changeTree, FileTree.Change.single, h]

theorem changeTree_error {operation : FileTree → Except FileFault FileTree} {refusal : FileFault}
    (h : operation s.tree = .error refusal) :
    changeTree (.single operation) s = .error (.file refusal) s := by
  simp only [changeTree, FileTree.Change.single, h]

theorem attempt_of_ok {x : Action α} {a : α} (h : x s = .ok a s') :
    attempt x s = .ok (.ok a) s' := by
  simp only [attempt, h]

theorem attempt_of_git {x : Action α} {failure : GitFailure} (h : x s = .error (.git failure) s') :
    attempt x s = .ok (.error failure) s' := by
  simp only [attempt, h]

theorem attempt_of_error {x : Action α} (h : x s = .error fault s')
    (hgit : ∀ failure, fault ≠ .git failure) : attempt x s = .error fault s' := by
  rw [attempt, h]
  cases fault with
  | git failure => exact absurd rfl (hgit failure)
  | _ => rfl

theorem attempt_eq_ok {x : Action α} {r : Except GitFailure α} (h : attempt x s = .ok r s') :
    (∃ a, r = .ok a ∧ x s = .ok a s') ∨
      ∃ failure, r = .error failure ∧ x s = .error (.git failure) s' := by
  rw [attempt] at h
  split at h
  · rename_i a t hx
    cases h
    exact .inl ⟨a, rfl, hx⟩
  · rename_i failure t hx
    cases h
    exact .inr ⟨failure, rfl, hx⟩
  · cases h

theorem attempt_eq_error {x : Action α} (h : attempt x s = .error fault s') :
    x s = .error fault s' ∧ ∀ failure, fault ≠ .git failure := by
  rw [attempt] at h
  split at h
  · cases h
  · cases h
  · rename_i hne hx
    cases h
    exact ⟨hx, hne⟩

end Session

end CommitGate
