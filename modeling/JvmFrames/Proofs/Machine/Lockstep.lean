import JvmFrames.Proofs.Machine.Step
import JvmFrames.Proofs.Thinning

/-!
# Two machines in step

A body and the body it thins to are run in step: what happens at a node that is kept happens in
both, and over a node that is taken out the first machine goes on alone
(`Machine.ThinsTo.exists_settled`). So both stop or neither does, and in the same way.
-/

namespace JvmFrames

/-- A body that is run without a recovery. -/
def Body.plain (method : Method) (oracle : Oracle) (code : Code) : Body :=
  ⟨method, code, oracle, none⟩

/-- The sites of the old body are renamed to those of the new one. -/
def Thinning.Renames {old new : Code} (t : Thinning old new) (r : Renaming) : Prop :=
  ∀ (p : Nat) c, old.nodes[p]? = some (.insn (.new c)) →
    new.siteBefore? (t.shift p) = (old.siteBefore? p).map r.label

/-- The second machine does in the new body what the first does in the old one. -/
structure Machine.ThinsTo {old new : Code} (t : Thinning old new) (r : Renaming) (m m' : Machine) :
    Prop where
  graph : m.graph.ThinsTo t r m'.graph
  work : m'.work = m.work.map (t.carryPath r)
  path : m'.path = m.path.map (t.carryPath r)
  maxima : m'.maxima = m.maxima

/-- Both machines go on, both have finished, or both have failed. -/
inductive Verdict.ThinsTo {old new : Code} (t : Thinning old new) (r : Renaming) :
    Verdict → Verdict → Prop where
  | running {m m' : Machine} (h : m.ThinsTo t r m') : ThinsTo t r (.running m) (.running m')
  | finished {m m' : Machine} (h : m.ThinsTo t r m') : ThinsTo t r (.finished m) (.finished m')
  | failed (m m' : Machine) (e e' : Error) : ThinsTo t r (.failed m e) (.failed m' e')

/-! ## One step

Related machines are at corresponding nodes. If the node is kept both do the same there; if it is
taken out the first one goes on, and is still related to the second. -/

theorem Maxima.cover_rename (limit : Maxima) (r : Renaming) (f : Frame) :
    limit.cover (f.rename r) = limit.cover f := by
  rw [cover, cover, Frame.words_locals_rename, Frame.stackWords_rename]

namespace Machine

variable {old new : Code} {t : Thinning old new} {r : Renaming} {m m' : Machine}
variable {method : Method} {oracle : Oracle} {p : Nat} {f : Frame}

namespace ThinsTo

/-- Both machines take up a path. -/
theorem follow (h : m.ThinsTo t r m') (p : Nat) (f : Frame) :
    (m.follow p f).ThinsTo t r (m'.follow (t.shift p) (f.rename r)) where
  graph := h.graph
  work := h.work
  path := rfl
  maxima := by
    show m'.maxima.cover _ = m.maxima.cover f
    rw [h.maxima, Maxima.cover_rename]

theorem withGraph {g g' : JoinGraph} (h : m.ThinsTo t r m') (hg : g.ThinsTo t r g') :
    ThinsTo t r { m with graph := g } { m' with graph := g' } :=
  ⟨hg, h.work, h.path, h.maxima⟩

theorem withWork {work work' : List (Nat × Frame)} (h : m.ThinsTo t r m')
    (hwork : work' = work.map (t.carryPath r)) :
    ThinsTo t r { m with work } { m' with work := work' } :=
  ⟨h.graph, hwork, h.path, h.maxima⟩

theorem leave (h : m.ThinsTo t r m') : m.leave.ThinsTo t r m'.leave :=
  ⟨h.graph, h.work, rfl, h.maxima⟩

theorem moveTo (h : m.ThinsTo t r m') (p : Nat) (f : Frame) :
    (m.moveTo p f).ThinsTo t r (m'.moveTo (t.shift p) (f.rename r)) :=
  ⟨h.graph, h.work, rfl, h.maxima⟩

/-- Both machines do the same at a label that is kept. -/
theorem passLabel {l : Label} (h : m.ThinsTo t r m') (hp : t.Keeps p) :
    Verdict.ThinsTo t r (m.passLabel (.plain method oracle old) p f l)
      (m'.passLabel (.plain method oracle new) (t.shift p) (f.rename r) l) := by
  unfold Machine.passLabel
  rw [h.graph.isJoin_eq, ← hp]
  split
  · obtain ⟨fault, fault', hx, hy, _⟩ | ⟨⟨g, changed⟩, ⟨g', changed'⟩, hx, hy, hg, heq⟩ :=
      (h.graph.agree_mark oracle l f).cases
    · simp only [Body.plain, hx, hy]
      exact .failed ..
    · dsimp only at hg heq
      cases heq
      cases changed with
      | false =>
        simp only [Body.plain, hx, hy]
        exact .running ((h.withGraph hg).leave)
      | true =>
        -- the frame to go on with is the merged one, which has been renamed with the graph
        have hframe : (g'.frameAt? l).getD (f.rename r) = ((g.frameAt? l).getD f).rename r := by
          rw [hg.frameAt?_eq]
          cases g.frameAt? l <;> rfl
        simp only [Body.plain, hx, hy, hframe]
        exact .running ((h.withGraph hg).moveTo (p + 1) _)
  · exact .running (h.moveTo (p + 1) f)

/-- Both instructions fail, or both are executed and give the same frame. -/
theorem cases_of_perform (h : m.ThinsTo t r m') (hp : t.Keeps p) (node : Node)
    {x y : Frame.Outcome Frame} (hxy : Agree (fun f f' => f' = f.rename r) x y) :
    (∃ m₁ e m₁' e', m.perform (.plain method oracle old) p node f x = (m₁, .error e)
        ∧ m'.perform (.plain method oracle new) (t.shift p) node (f.rename r) y = (m₁', .error e'))
      ∨ ∃ m₁ m₁' f₁, m.perform (.plain method oracle old) p node f x = (m₁, .ok f₁)
        ∧ m'.perform (.plain method oracle new) (t.shift p) node (f.rename r) y
          = (m₁', .ok (f₁.rename r))
        ∧ m₁.ThinsTo t r m₁' := by
  -- the handlers are fed before the instruction is executed, in both machines
  obtain ⟨fault, fault', hfeed, hfeed', _⟩ | ⟨g, g', hfeed, hfeed', hg⟩ :=
    (h.graph.agree_feed oracle hp f).cases
  · left
    exact ⟨_, _, _, _, perform_of_feed_error hfeed, perform_of_feed_error hfeed'⟩
  · obtain ⟨fault, fault', rfl, rfl, _⟩ | ⟨f₁, _, rfl, rfl, rfl⟩ := hxy.cases
    · left
      exact ⟨_, _, _, _, perform_error rfl hfeed, perform_error rfl hfeed'⟩
    · right
      exact ⟨_, _, f₁, perform_ok hfeed, perform_ok hfeed', h.withGraph hg⟩

/-- Both machines do the same at an instruction, if the sites of allocations are renamed. -/
theorem passInsn {i : Instruction} (h : m.ThinsTo t r m') (hp : t.Keeps p)
    (hsite : ∀ c, i = .new c → new.siteBefore? (t.shift p) = (old.siteBefore? p).map r.label) :
    Verdict.ThinsTo t r (m.passInsn (.plain method oracle old) p f i)
      (m'.passInsn (.plain method oracle new) (t.shift p) (f.rename r) i) := by
  unfold Machine.passInsn
  rw [← hp]
  obtain ⟨m₁, e, m₁', e', hx, hy⟩ | ⟨m₁, m₁', f₁, hx, hy, hm⟩ :=
    h.cases_of_perform hp (.insn i) (Frame.agree_execute r f method.className hsite)
  · simp only [Body.plain] at hx hy ⊢
    rw [hx, hy]
    exact .failed ..
  · simp only [Body.plain] at hx hy ⊢
    rw [hx, hy]
    exact .running (hm.follow (p + 1) f₁)

/-- Both machines do the same at a branch. -/
theorem passBranch {b : Branch} (h : m.ThinsTo t r m') (hp : t.Keeps p) :
    Verdict.ThinsTo t r (m.passBranch (.plain method oracle old) p f b)
      (m'.passBranch (.plain method oracle new) (t.shift p) (f.rename r) b) := by
  unfold Machine.passBranch
  rw [← hp]
  obtain ⟨m₁, e, m₁', e', hx, hy⟩ | ⟨m₁, m₁', f₁, hx, hy, hm⟩ :=
    h.cases_of_perform hp (.branch b) (Frame.agree_executeBranch r f method.descriptor.result b)
  · simp only [Body.plain] at hx hy ⊢
    rw [hx, hy]
    exact .failed ..
  · simp only [Body.plain] at hx hy ⊢
    rw [hx, hy]
    -- the targets get the frame that the branch leaves
    have hfollow := hm.follow (p + 1) f₁
    have hmark := hfollow.graph.agree_markTargets oracle f₁ b.targets (m₁.follow (p + 1) f₁).work
    rw [← hfollow.work] at hmark
    obtain ⟨fault, fault', hk, hk', _⟩ | ⟨⟨g, work⟩, ⟨g', work'⟩, hk, hk', hg, hwork⟩ := hmark.cases
    · simp only [hk, hk']
      exact .failed ..
    · simp only [hk, hk']
      have hmarked := (hfollow.withGraph hg).withWork hwork
      cases b.fallsThrough with
      | false => exact .running hmarked.leave
      | true => exact .running hmarked

end ThinsTo

/-- How many nodes are left on the current path. -/
def nodesLeft (code : Code) (m : Machine) : Nat :=
  match m.path with
  | none => 0
  | some (p, _) => code.nodes.size - p

/-- At a node that is taken out the first machine goes on alone, and has fewer nodes left then. -/
def Skips (t : Thinning old new) (r : Renaming) (body : Body) (m m' : Machine) : Prop :=
  ∃ m₁, m.step body = .running m₁ ∧ m₁.ThinsTo t r m' ∧ m₁.nodesLeft old < m.nodesLeft old

/-- The first machine goes on alone over a node that is taken out. -/
theorem ThinsTo.skips (h : m.ThinsTo t r m') {node : Node} (hpath : m.path = some (p, f))
    (hnode : old.nodes[p]? = some node) (hthin : node.thin t.relabel = none)
    (hstep : m.step (.plain method oracle old) = .running (m.moveTo (p + 1) f)) :
    Skips t r (.plain method oracle old) m m' := by
  refine ⟨_, hstep, ⟨h.graph, h.work, ?_, h.maxima⟩, ?_⟩
  · show m'.path = some (t.shift (p + 1), f.rename r)
    rw [h.path, hpath, Thinning.shift_of_dropped hnode hthin]
    rfl
  · have hlt := (Array.getElem?_eq_some_iff.mp hnode).1
    have hleft : m.nodesLeft old = old.nodes.size - p := by simp only [nodesLeft, hpath]
    show old.nodes.size - (p + 1) < m.nodesLeft old
    omega

/-- Without a path to follow, the next one is taken up. -/
theorem ThinsTo.step_idle (h : m.ThinsTo t r m') (hpath : m.path = none) :
    Verdict.ThinsTo t r (m.step (.plain method oracle old))
      (m'.step (.plain method oracle new)) := by
  have hpath' : m'.path = none := by
    rw [h.path, hpath]
    rfl
  have hwork := h.work
  unfold Machine.step
  simp only [hpath, hpath']
  cases hm : m.work with
  | cons first work =>
    rw [hm] at hwork
    simp only [hwork, List.map_cons, Thinning.carryPath]
    exact .running ⟨h.graph, rfl, rfl, (h.follow first.1 first.2).maxima⟩
  -- with nothing left to follow, both look for a handler that waits
  | nil =>
    rw [hm] at hwork
    simp only [hwork, List.map_nil]
    obtain ⟨hx, hy⟩ | ⟨l, p, f, g, g', hx, hy, hg⟩ := h.graph.nextPending?_cases
    · simp only [hx, hy]
      exact .finished h
    · simp only [hx, hy]
      exact .running ⟨hg, rfl, rfl, (h.follow p f).maxima⟩

/-- Nothing refers to a label that changes, so that it is passed in silence. -/
theorem ThinsTo.step_label {l : Label} (h : m.ThinsTo t r m') (hpath : m.path = some (p, f))
    (hnode : old.nodes[p]? = some (.label l)) (hl : ¬ t.fixed l) :
    Skips t r (.plain method oracle old) m m'
      ∨ Verdict.ThinsTo t r (m.step (.plain method oracle old))
          (m'.step (.plain method oracle new)) := by
  have hstep : m.step (.plain method oracle old) = .running (m.moveTo (p + 1) f) := by
    simp only [Machine.step, Body.plain, hpath, hnode, Machine.passLabel,
      h.graph.isJoin_of_not_fixed hl, Bool.false_eq_true, if_false]
  cases hrelabel : t.relabel l with
  | none => exact Or.inl (h.skips hpath hnode (Node.thin_of_none hrelabel) hstep)
  | some l' =>
    have hthin := Node.thin_of_some hrelabel
    have hjoin : m'.graph.isJoin l' = false := by
      rw [h.graph.isJoin_eq]
      exact h.graph.isJoin_of_not_fixed fun hl' => hl (t.fixed_of_relabel l l' hrelabel hl')
    have hpath' : m'.path = some (t.shift p, f.rename r) := by
      rw [h.path, hpath]
      rfl
    -- the label is kept under another name, and both machines pass it
    right
    rw [hstep]
    simp only [Machine.step, Body.plain, hpath', Thinning.node_of_thin hnode hthin,
      Machine.passLabel, hjoin, Bool.false_eq_true, if_false]
    rw [← Thinning.keeps_of_thin hnode hthin]
    exact .running (h.moveTo (p + 1) f)

/-- One step: the machines do the same, unless the first is at a node that is taken out. -/
theorem ThinsTo.step (h : m.ThinsTo t r m') (hr : t.Renames r) (method : Method)
    (oracle : Oracle) :
    Skips t r (.plain method oracle old) m m'
      ∨ Verdict.ThinsTo t r (m.step (.plain method oracle old))
          (m'.step (.plain method oracle new)) := by
  cases hpath : m.path with
  | none => exact Or.inr (h.step_idle hpath)
  | some path =>
    obtain ⟨p, f⟩ := path
    have hpath' : m'.path = some (t.shift p, f.rename r) := by
      rw [h.path, hpath]
      rfl
    cases hnode : old.nodes[p]? with
    | none =>
      right
      simp only [Machine.step, Body.plain, hpath, hpath', hnode, Thinning.node_of_end hnode]
      exact .failed ..
    | some node =>
      cases node with
      -- frames are taken out, so the first machine passes it on its own
      | frame s =>
        left
        refine h.skips hpath hnode rfl ?_
        simp only [Machine.step, Body.plain, hpath, hnode]
      | label l =>
        -- labels that nothing refers to may be gone or have another name
        by_cases hl : t.fixed l
        · obtain ⟨hp, hnode'⟩ := Thinning.node_of_fixed hnode hl
          right
          simp only [Machine.step, hpath, hpath', Body.plain, hnode, hnode']
          exact h.passLabel hp
        · exact h.step_label hpath hnode hl
      | insn i =>
        obtain ⟨hp, hnode'⟩ := Thinning.node_of_instruction (t := t) hnode rfl
        right
        simp only [Machine.step, hpath, hpath', Body.plain, hnode, hnode']
        exact h.passInsn hp fun c hi => hr p c (hi ▸ hnode)
      | branch b =>
        obtain ⟨hp, hnode'⟩ := Thinning.node_of_instruction (t := t) hnode rfl
        right
        simp only [Machine.step, hpath, hpath', Body.plain, hnode, hnode']
        exact h.passBranch hp

/-! ## Runs

The first machine may take several steps while the second takes none, but only so many as there are
nodes left. So each run can be followed by the other. -/

/-- After some steps of its own, the first machine does what the second does. -/
theorem ThinsTo.exists_settled (h : m.ThinsTo t r m') (hr : t.Renames r) (method : Method)
    (oracle : Oracle) :
    ∃ n m₁, m.after (.plain method oracle old) n = some m₁
      ∧ Verdict.ThinsTo t r (m₁.step (.plain method oracle old))
          (m'.step (.plain method oracle new)) := by
  generalize hleft : m.nodesLeft old = k
  -- each node that is passed alone leaves fewer of them on the path
  induction k using Nat.strongRecOn generalizing m with
  | _ k ih =>
    obtain ⟨m₁, hstep, hm₁, hlt⟩ | hverdict := h.step hr method oracle
    · obtain ⟨n, m₂, hafter, hm₂⟩ := ih (m₁.nodesLeft old) (hleft ▸ hlt) hm₁ rfl
      refine ⟨n + 1, m₂, ?_, hm₂⟩
      rw [after, hstep]
      exact hafter
    · exact ⟨0, m, rfl, hverdict⟩

/-- Both runs have finished, or both have failed. -/
inductive EndLike (t : Thinning old new) (r : Renaming) :
    Machine × Option Error → Machine × Option Error → Prop where
  | finished {m m' : Machine} (h : m.ThinsTo t r m') : EndLike t r (m, none) (m', none)
  | failed (m m' : Machine) (e e' : Error) : EndLike t r (m, some e) (m', some e')

/-- If the first machine stops, so does the second, and in the same way. -/
theorem ThinsTo.exists_run_new {result : Machine × Option Error} {fuel : Nat}
    (h : m.ThinsTo t r m') (hr : t.Renames r)
    (hrun : run (.plain method oracle old) fuel m = some result) :
    ∃ fuel' result', run (.plain method oracle new) fuel' m' = some result'
      ∧ EndLike t r result result' := by
  induction fuel generalizing m m' with
  | zero => cases hrun
  | succ fuel ih =>
    obtain ⟨n, m₁, hafter, hverdict⟩ := h.exists_settled hr method oracle
    -- passing nodes that are taken out only uses up fuel of the first machine
    have hrun₁ := run_of_run_of_after hafter hrun
    rw [run] at hrun₁
    generalize m₁.step (.plain method oracle old) = v at hverdict hrun₁
    generalize hstep : m'.step (.plain method oracle new) = v' at hverdict
    cases hverdict with
    | running hm =>
      obtain ⟨fuel', result', hrun', hends⟩ := ih hm hrun₁
      refine ⟨fuel' + 1, result', ?_, hends⟩
      rw [run, hstep]
      exact hrun'
    | finished hm =>
      cases hrun₁
      refine ⟨1, _, ?_, .finished hm⟩
      rw [run, hstep]
    | failed m₂ m₂' e e' =>
      cases hrun₁
      refine ⟨1, _, ?_, .failed m₂ m₂' e e'⟩
      rw [run, hstep]

/-- If the second machine stops, so does the first, and in the same way. -/
theorem ThinsTo.exists_run_old {result' : Machine × Option Error} {fuel' : Nat}
    (h : m.ThinsTo t r m') (hr : t.Renames r)
    (hrun : run (.plain method oracle new) fuel' m' = some result') :
    ∃ fuel result, run (.plain method oracle old) fuel m = some result
      ∧ EndLike t r result result' := by
  induction fuel' generalizing m m' with
  | zero => cases hrun
  | succ fuel' ih =>
    obtain ⟨n, m₁, hafter, hverdict⟩ := h.exists_settled hr method oracle
    -- the steps that the first machine takes alone come on top of the fuel
    have hgoes := run_of_after hafter
    rw [run] at hrun
    generalize hstep : m₁.step (.plain method oracle old) = v at hverdict
    generalize m'.step (.plain method oracle new) = v' at hverdict hrun
    cases hverdict with
    | running hm =>
      obtain ⟨fuel, result, hrun₁, hends⟩ := ih hm hrun
      refine ⟨n + (fuel + 1), result, ?_, hends⟩
      rw [hgoes, run, hstep]
      exact hrun₁
    | finished hm =>
      cases hrun
      refine ⟨n + 1, _, ?_, .finished hm⟩
      rw [hgoes, run, hstep]
    | failed m₂ m₂' e e' =>
      cases hrun
      refine ⟨n + 1, _, ?_, .failed m₂ m₂' e e'⟩
      rw [hgoes, run, hstep]

end Machine

end JvmFrames
