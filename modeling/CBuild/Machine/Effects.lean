import CBuild.Machine.Run

/-! # Programs of single effects

A program has one effect after the other and goes on with whether it succeeded; in between it looks at the
state. An effect may stop early, and with it the program.
-/

namespace CBuild.Machine

/-- What is left to do; a program that looks at the state goes on with what it sees. -/
inductive Prog (σ ε : Type)
  | exit
  | act (effect : ε) (next : Bool → Prog σ ε)
  | look (next : σ → Prog σ ε)

/-- How an effect ends, and what it leaves when it does not succeed. After `killed` nothing follows. -/
inductive Outcome (Left : Type)
  | success
  | failed (left : Left)
  | killed (left : Left)

variable {σ ε Left : Type}

def Prog.settle (s : σ) : Prog σ ε → Prog σ ε
  | exit => exit
  | act effect next => act effect next
  | look next => (next s).settle s

/-- A state and the program that runs on it. -/
structure Process (σ ε : Type) where
  state : σ
  prog : Prog σ ε

/-- The next effect of the program ends. -/
def Process.advance (apply : σ → ε → Outcome Left → σ) (p : Process σ ε) (outcome : Outcome Left) : Process σ ε :=
  match p.prog with
  | .act effect next =>
    let state := apply p.state effect outcome
    match outcome with
    | .success => ⟨state, (next true).settle state⟩
    | .failed _ => ⟨state, (next false).settle state⟩
    | .killed _ => ⟨state, .exit⟩
  | _ => p

def Process.start (p : Process σ ε) (prog : Prog σ ε) : Process σ ε :=
  match p.prog with
  | .exit => ⟨p.state, prog.settle p.state⟩
  | _ => p

theorem Process.advance_state {apply : σ → ε → Outcome Left → σ} {p : Process σ ε} {outcome : Outcome Left}
    {effect : ε} {next : Bool → Prog σ ε} (running : p.prog = .act effect next) :
    (p.advance apply outcome).state = apply p.state effect outcome := by
  rw [Process.advance, running]
  cases outcome <;> rfl

theorem Process.advance_idle {apply : σ → ε → Outcome Left → σ} {p : Process σ ε} {outcome : Outcome Left}
    (idle : ∀ effect next, p.prog ≠ .act effect next) : p.advance apply outcome = p := by
  rw [Process.advance]
  split
  · next effect next running => exact absurd running (idle effect next)
  · rfl

theorem Process.start_state {p : Process σ ε} {prog : Prog σ ε} : (p.start prog).state = p.state := by
  rw [Process.start]
  split <;> rfl

section Ends

variable (apply : σ → ε → Outcome Left → σ)

/-- The program can come to an end in the second state, whether its effects succeed, fail or stop it. -/
inductive Prog.Ends : Prog σ ε → σ → σ → Prop
  | exit {s : σ} : Ends exit s s
  | success {effect : ε} {next : Bool → Prog σ ε} {s s' : σ} (rest : Ends (next true) (apply s effect .success) s') :
      Ends (act effect next) s s'
  | failed {effect : ε} {next : Bool → Prog σ ε} {s s' : σ} (left : Left)
      (rest : Ends (next false) (apply s effect (.failed left)) s') : Ends (act effect next) s s'
  | killed {effect : ε} {next : Bool → Prog σ ε} {s : σ} (left : Left) :
      Ends (act effect next) s (apply s effect (.killed left))
  | look {next : σ → Prog σ ε} {s s' : σ} (rest : Ends (next s) s s') : Ends (look next) s s'

variable {apply}

/-- Outcomes of its effects bring the program to each of its ends. -/
theorem Prog.Ends.outcomes {prog : Prog σ ε} {s s' : σ} (ends : prog.Ends apply s s') :
    ∃ outcomes : List (Outcome Left), run (Process.advance apply) ⟨s, prog.settle s⟩ outcomes = ⟨s', .exit⟩ := by
  induction ends with
  | exit => exact ⟨[], rfl⟩
  | success _ ih =>
    obtain ⟨outcomes, rest⟩ := ih
    exact ⟨.success :: outcomes, rest⟩
  | failed left _ ih =>
    obtain ⟨outcomes, rest⟩ := ih
    exact ⟨.failed left :: outcomes, rest⟩
  | killed left => exact ⟨[.killed left], rfl⟩
  | look _ ih => exact ih

end Ends

section Keeps

variable (apply : σ → ε → Outcome Left → σ) (allowed : σ → ε → Outcome Left → Prop) (Good : σ → Prop)

/-- Every state that the program reaches by allowed effects is good, wherever it is stopped. -/
def Prog.Keeps : Prog σ ε → σ → Prop
  | exit, s => Good s
  | act effect next, s => Good s ∧
      (allowed s effect .success → (next true).Keeps (apply s effect .success)) ∧
      (∀ left, allowed s effect (.failed left) → (next false).Keeps (apply s effect (.failed left))) ∧
      ∀ left, allowed s effect (.killed left) → Good (apply s effect (.killed left))
  | look next, s => (next s).Keeps s

/-- The next effect of the process ends as it may. -/
def Process.Allowed (p : Process σ ε) (outcome : Outcome Left) : Prop :=
  ∀ effect next, p.prog = .act effect next → allowed p.state effect outcome

variable {apply allowed Good}

theorem Prog.Keeps.good {prog : Prog σ ε} {s : σ} (keeps : prog.Keeps apply allowed Good s) : Good s := by
  induction prog with
  | exit => exact keeps
  | act effect next _ => exact keeps.1
  | look next ih => exact ih s keeps

theorem Prog.Keeps.settle {prog : Prog σ ε} {s : σ} (keeps : prog.Keeps apply allowed Good s) :
    (prog.settle s).Keeps apply allowed Good s := by
  induction prog with
  | exit => exact keeps
  | act effect next _ => exact keeps
  | look next ih => exact ih s keeps

/-- An allowed effect leaves a process that keeps the same states. -/
theorem Process.advance_keeps {p : Process σ ε} {outcome : Outcome Left}
    (keeps : p.prog.Keeps apply allowed Good p.state) (may : p.Allowed allowed outcome) :
    (p.advance apply outcome).prog.Keeps apply allowed Good (p.advance apply outcome).state := by
  obtain ⟨s, prog⟩ := p
  cases prog with
  | exit => exact keeps
  | look next => exact keeps
  | act effect next =>
    have here := may effect next rfl
    cases outcome with
    | success => exact (keeps.2.1 here).settle
    | failed left => exact (keeps.2.2.1 left here).settle
    | killed left => exact keeps.2.2.2 left here

end Keeps

end CBuild.Machine
