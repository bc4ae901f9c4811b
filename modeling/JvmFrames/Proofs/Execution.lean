import Mathlib.Logic.Relation
import JvmFrames.Proofs.JoinGraph.Built

/-!
# Execution between join points

Straight execution through a body, apart from any worklist. A state is a position with a frame.
`Body.Advances` is one step that neither jumps nor passes a join label, and `Body.Admits` says that
execution may go on from a state: the next step cannot fail, and whatever flows from there into a
join point has arrived, in a sense that is left open.
-/

namespace JvmFrames

namespace Body

/-- Execution goes one node forward: over a computed frame, over a label that nothing leads to, or
through an instruction after which control goes on. -/
inductive Advances (body : Body) (g : JoinGraph) : Nat × Frame → Nat × Frame → Prop where
  | label (p : Nat) (f : Frame) (l : Label) (hnode : body.code.nodes[p]? = some (.label l))
      (hjoin : g.isJoin l = false) : Advances body g (p, f) (p + 1, f)
  | frame (p : Nat) (f : Frame) (s : StackMapFrame VType)
      (hnode : body.code.nodes[p]? = some (.frame s)) : Advances body g (p, f) (p + 1, f)
  | insn (p : Nat) (f f' : Frame) (i : Instruction)
      (hnode : body.code.nodes[p]? = some (.insn i))
      (hexec : f.execute body.method.className (body.code.siteBefore? p) i = .ok f') :
      Advances body g (p, f) (p + 1, f')
  | branch (p : Nat) (f f' : Frame) (b : Branch)
      (hnode : body.code.nodes[p]? = some (.branch b)) (hfall : b.fallsThrough = true)
      (hexec : f.executeBranch body.method.descriptor.result b = .ok f') :
      Advances body g (p, f) (p + 1, f')

/-- The state that straight execution goes on to, if it does. -/
def next? (body : Body) (g : JoinGraph) (s : Nat × Frame) : Option (Nat × Frame) :=
  match body.code.nodes[s.1]? with
  | none => none
  -- a piece of straight execution ends at a join label
  | some (.label l) => if g.isJoin l then none else some (s.1 + 1, s.2)
  | some (.frame _) => some (s.1 + 1, s.2)
  | some (.insn i) =>
    (s.2.execute body.method.className (body.code.siteBefore? s.1) i).toOption.map (s.1 + 1, ·)
  | some (.branch b) =>
    if b.fallsThrough then
      (s.2.executeBranch body.method.descriptor.result b).toOption.map (s.1 + 1, ·)
    else none

/-- Straight execution is deterministic: a step leads to the state that `next?` computes, and so to
no other one. -/
theorem Advances.next?_eq {body : Body} {g : JoinGraph} {s t : Nat × Frame}
    (h : body.Advances g s t) : body.next? g s = some t := by
  cases h with
  | label p f l hnode hjoin => simp [next?, hnode, hjoin]
  | frame p f s hnode => simp [next?, hnode]
  | insn p f f' i hnode hexec => simp [next?, hnode, hexec, Except.toOption]
  | branch p f f' b hnode hfall hexec => simp [next?, hnode, hfall, hexec, Except.toOption]

/-- Straight execution from one state leads to another. -/
def Reaches (body : Body) (g : JoinGraph) : Nat × Frame → Nat × Frame → Prop :=
  Relation.ReflTransGen (body.Advances g)

/-- Execution may go on from a state. There is a node; if it is an instruction it executes, after
the handlers that protect it have the frame before it; and where a frame gets to a join label, by
falling into it or by a jump, it arrives there. -/
def Admits (body : Body) (g : JoinGraph) (arrives : Label → Frame → Prop) (p : Nat) (f : Frame) :
    Prop :=
  match body.code.nodes[p]? with
  | none => False
  | some (.label l) => g.isJoin l = true → arrives l f
  | some (.frame _) => True
  | some (.insn i) => g.Catches arrives p f
      ∧ ∃ f', f.execute body.method.className (body.code.siteBefore? p) i = .ok f'
  | some (.branch b) => g.Catches arrives p f
      ∧ ∃ f', f.executeBranch body.method.descriptor.result b = .ok f'
          ∧ ∀ t ∈ b.targets, arrives t f'

namespace Admits

variable {body : Body} {g : JoinGraph} {arrives : Label → Frame → Prop} {p : Nat} {f : Frame}

/-- Execution that may go on has not run off the end of the body. -/
theorem exists_node (h : body.Admits g arrives p f) : ∃ node, body.code.nodes[p]? = some node := by
  unfold Admits at h
  cases hnode : body.code.nodes[p]? with
  | none => simp only [hnode] at h
  | some node => exact ⟨node, rfl⟩

/-- Falling into a join label is one of the ways in which a frame arrives there. -/
theorem arrives_label {l : Label} (h : body.Admits g arrives p f)
    (hnode : body.code.nodes[p]? = some (.label l)) (hjoin : g.isJoin l = true) : arrives l f := by
  simp only [Admits, hnode] at h
  exact h hjoin

/-- The next instruction executes. What it gives is not said here, since there is only one thing it
can give (`Frame.execute` is a function). -/
theorem executes {i : Instruction} (h : body.Admits g arrives p f)
    (hnode : body.code.nodes[p]? = some (.insn i)) :
    ∃ f', f.execute body.method.className (body.code.siteBefore? p) i = .ok f' := by
  simp only [Admits, hnode] at h
  exact h.2

/-- The next branch executes, and what it leaves arrives at all of its targets. -/
theorem executes_branch {b : Branch} (h : body.Admits g arrives p f)
    (hnode : body.code.nodes[p]? = some (.branch b)) :
    ∃ f', f.executeBranch body.method.descriptor.result b = .ok f'
      ∧ ∀ t ∈ b.targets, arrives t f' := by
  simp only [Admits, hnode] at h
  exact h.2

/-- Before an instruction or a branch executes, the handlers that protect it have the frame that was
there. -/
theorem catches {node : Node} (h : body.Admits g arrives p f)
    (hnode : body.code.nodes[p]? = some node) (hinsn : node.isInstruction = true) :
    g.Catches arrives p f := by
  cases node with
  | label l => cases hinsn
  | frame s => cases hinsn
  | insn i =>
    simp only [Admits, hnode] at h
    exact h.1
  | branch b =>
    simp only [Admits, hnode] at h
    exact h.1

end Admits

instance (body : Body) (g : JoinGraph) (arrives : Label → Frame → Prop)
    [∀ l f, Decidable (arrives l f)] (p : Nat) (f : Frame) : Decidable (body.Admits g arrives p f) :=
  match hnode : body.code.nodes[p]? with
  | none => isFalse (by simp [Admits, hnode])
  | some (.label l) => decidable_of_iff (g.isJoin l = true → arrives l f) (by simp [Admits, hnode])
  | some (.frame _) => isTrue (by simp [Admits, hnode])
  -- what is asked to exist can only be the result of the execution, so that is run once
  | some (.insn i) =>
    match hexec : f.execute body.method.className (body.code.siteBefore? p) i with
    | .ok f' => decidable_of_iff (g.Catches arrives p f) (by simp [Admits, hnode, hexec])
    | .error _ => isFalse (by simp [Admits, hnode, hexec])
  | some (.branch b) =>
    match hexec : f.executeBranch body.method.descriptor.result b with
    | .ok f' => decidable_of_iff (g.Catches arrives p f ∧ ∀ t ∈ b.targets, arrives t f')
        (by simp [Admits, hnode, hexec])
    | .error _ => isFalse (by simp [Admits, hnode, hexec])

/-- The states that straight execution starts from: the start of the body with the frame on entry,
and the place after each join label that has a frame. -/
inductive Starts (body : Body) (g : JoinGraph) (frames : Label → Option Frame) :
    Nat × Frame → Prop where
  | entry : Starts body g frames (0, Frame.entry body.method)
  | join (l : Label) (p : Nat) (f : Frame) (hjoin : g.isJoin l = true) (hp : g.position l = .ok p)
      (hf : frames l = some f) : Starts body g frames (p + 1, f)

end Body

/-! ## A body to look at

The examples in the modules that follow run on a loop that counts its first parameter down and
overwrites its second one, with everything in the loop protected by one handler. -/

namespace Countdown

/-- A static method with an `int` and a `String`. -/
def method : Method :=
  ⟨.object, .init, ⟨[.base .int, .ref (.object .string)], none⟩, .of [.STATIC]⟩

/-- The loop starts at label 0, label 1 is behind it, and label 2 is the handler. -/
def code : Code where
  nodes := #[
    .label ⟨0⟩,
    .insn (.load (.number .int) 0),
    .branch (.ifZero .eq ⟨1⟩),
    .insn (.increment 0 (-1)),
    .insn (.ldc (.classRef (.object .string))),
    .insn (.store .reference 1),
    .branch (.goto ⟨0⟩),
    .label ⟨1⟩,
    .branch .returnVoid,
    .label ⟨2⟩,
    .insn (.shuffle .pop),
    .branch (.goto ⟨1⟩)]
  nextLabel := 3

def ranges : List ProtectedRange := [⟨⟨0⟩, ⟨1⟩, ⟨2⟩, none⟩]

end Countdown

end JvmFrames
