import Script.Grammar.Program

/-!
The calls that a reading makes. A parser of one nesting level is built from those of the level
below, and whatever it reads inside a construct it asks of them; so the calls of a reading form a
tree, whose size is the number of calls.
-/
namespace Script

/-- What can stand inside a construct. -/
inductive Inside where
  | expr (min : Strength)
  | value (min : Strength)
  | statement

abbrev Inside.Result : Inside → Type
  | expr _ | value _ => Expr
  | statement => Statement

/-- A parser for the inside of a construct, called at a cursor. -/
structure Call where
  inside : Inside
  surroundings : Surroundings
  cursor : Cursor

/-- The answer to a call. -/
def Nested.answer (nested : Nested) : (q : Call) → Outcome q.inside.Result
  | ⟨.expr min, s, c⟩ => nested.expr min s c
  | ⟨.value min, s, c⟩ => nested.value min s c
  | ⟨.statement, s, c⟩ => nested.statement s c

/-- What runs when a call is answered, given the parsers of the level below. -/
def Call.body : (q : Call) → Nested → Outcome q.inside.Result
  | ⟨.expr min, s, c⟩, nested => Parser.expr nested min s c
  | ⟨.value min, s, c⟩, nested => Parser.value nested min s c
  | ⟨.statement, s, c⟩, nested => Parser.statement nested s c

theorem Nested.answer_level (n : Nat) (q : Call) :
    (Nested.level (n + 1)).answer q = q.body (Nested.level n) := by
  obtain ⟨inside, s, c⟩ := q
  cases inside <;> rfl

/-- A computation that is handed parsers makes the calls `qs` of them, one after the other and no
others: it is done without them, or it makes a call and goes on with the answer. -/
inductive Asks (nested : Nested) {β : Type} : (Nested → β) → List Call → Prop
  | done (b : β) : Asks nested (fun _ => b) []
  | ask {q : Call} {k : Outcome q.inside.Result → Nested → β} {qs : List Call}
      (h : Asks nested (k (nested.answer q)) qs) :
      Asks nested (fun other => k (other.answer q) other) (q :: qs)

namespace Asks

variable {nested : Nested} {β γ : Type}

theorem call (nested : Nested) (q : Call) : Asks nested (fun other => other.answer q) [q] :=
  .ask (k := fun x _ => x) (.done _)

/-- One computation goes on where another ends. -/
theorem bind {f : Nested → β} {g : β → Nested → γ} {qs rs : List Call} (h : Asks nested f qs)
    (hg : Asks nested (g (f nested)) rs) :
    Asks nested (fun other => g (f other) other) (qs ++ rs) := by
  induction h with
  | done b => exact hg
  | @ask q k qs h ih => exact .ask (k := fun x other => g (k x other) other) (ih hg)

theorem map {f : Nested → β} (g : β → γ) {qs : List Call} (h : Asks nested f qs) :
    Asks nested (fun other => g (f other)) qs := by
  have hbind := h.bind (g := fun b _ => g b) (.done _)
  rwa [List.append_nil] at hbind

/-- What a computation answers depends on the answers to its calls alone. -/
theorem congr {f : Nested → β} {qs : List Call} (h : Asks nested f qs) {other : Nested}
    (heq : ∀ q ∈ qs, other.answer q = nested.answer q) : f other = f nested := by
  induction h with
  | done b => rfl
  | @ask q k qs h ih =>
    show k (other.answer q) other = k (nested.answer q) nested
    rw [heq q (by simp)]
    exact ih fun r hr => heq r (by simp [hr])

end Asks

/-- The numbers that belong to some calls add up to `k`. -/
inductive Adds (takes : Call → Nat → Prop) : List Call → Nat → Prop
  | nil : Adds takes [] 0
  | cons {q : Call} {qs : List Call} {j k : Nat} (hq : takes q j) (h : Adds takes qs k) :
      Adds takes (q :: qs) (j + k)

theorem Adds.append {takes : Call → Nat → Prop} {qs rs : List Call} {j k : Nat}
    (h : Adds takes qs j) (h' : Adds takes rs k) : Adds takes (qs ++ rs) (j + k) := by
  induction h with
  | nil => rwa [Nat.zero_add]
  | cons hq _ ih =>
    rw [List.cons_append, Nat.add_assoc]
    exact .cons hq ih

theorem Adds.exists_of_mem {takes : Call → Nat → Prop} {q : Call} {qs : List Call} {k : Nat}
    (h : Adds takes qs k) (hq : q ∈ qs) : ∃ j, takes q j := by
  induction h with
  | nil => cases hq
  | cons hr _ ih =>
    rcases List.mem_cons.1 hq with rfl | hq
    · exact ⟨_, hr⟩
    · exact ih hq

/-- A call at a nesting level takes `k` calls in all, itself included. Nothing is read at level
zero, so no call of the tree is made there. -/
def Call.Takes : Nat → Call → Nat → Prop
  | 0, _, _ => False
  | n + 1, q, k => ∃ qs j, Asks (Nested.level n) q.body qs ∧ Adds (Call.Takes n) qs j ∧ k = j + 1

/-- Where the calls of a reading are all answered, deeper levels change nothing. -/
theorem Call.Takes.deeper {n m : Nat} (hm : n ≤ m) {q : Call} {k : Nat} (h : Call.Takes n q k) :
    (Nested.level m).answer q = (Nested.level n).answer q := by
  induction n generalizing m q k with
  | zero => exact h.elim
  | succ n ih =>
    obtain ⟨m, rfl⟩ : ∃ i, m = i + 1 := ⟨m - 1, by omega⟩
    obtain ⟨qs, j, hasks, hadds, -⟩ := h
    rw [Nested.answer_level, Nested.answer_level]
    refine hasks.congr fun r hr => ?_
    obtain ⟨i, hi⟩ := hadds.exists_of_mem hr
    exact ih (by omega) hi

/-- Reading a program from a cursor takes `k` calls of the parsers for expressions, values and
statements. -/
def Program.Takes (c : Cursor) (k : Nat) : Prop :=
  ∃ qs, Asks (Nested.level (c.weight + 1))
      (fun nested => Parser.programWithin nested ⟨.expectValue, true⟩ c) qs ∧
    Adds (Call.Takes (c.weight + 1)) qs k

theorem Program.Takes.deeper {c : Cursor} {k n : Nat} (h : Program.Takes c k) (hn : c.weight < n) :
    Parser.programWithin (Nested.level n) ⟨.expectValue, true⟩ c = Program.read c := by
  obtain ⟨qs, hasks, hadds⟩ := h
  refine hasks.congr fun q hq => ?_
  obtain ⟨j, hj⟩ := hadds.exists_of_mem hq
  exact hj.deeper hn

end Script
