import JvmFrames.Proofs.Closure
import JvmFrames.Proofs.Values
import JvmFrames.Proofs.WordEffect
import Mathlib.Logic.Relation

/-!
# Stack depth is a matter of position

When analysis succeeds, the number of words on the stack is fixed by the position: it follows from
the effects of the nodes on any way there, and all ways agree (`Body.Depths`). A finished run has
been at every position that control can get to (`Machine.Meets`), and the depths are those it has
met.

What control can get to has to be said with care. A frame that arrives at a join label by a jump or
by falling into it is passed on to the handlers that protect the label, but a frame that gets to a
handler as an exception is not. So a handler that protects the label of another handler, which
exceptions enter, and no instruction, may never be entered itself.
-/

namespace JvmFrames

/-! ## Positions in reach

Control flow without frames: which position may come after which. The depths are those numbers that
fit all of these edges. -/

/-- Control may pass to the next node. -/
def Node.fallsThrough : Node → Bool
  | branch b => b.fallsThrough
  | _ => true

namespace Body

/-- Control passes from a position to the next one, or jumps. -/
inductive GoesTo (body : Body) (p : Nat) : Nat → Prop where
  | fall (node : Node) (hnode : body.code.nodes[p]? = some node)
      (hfall : node.fallsThrough = true) : GoesTo body p (p + 1)
  | jump (b : Branch) (t : Label) (q : Nat) (hnode : body.code.nodes[p]? = some (.branch b))
      (ht : t ∈ b.targets) (hq : body.code.nodes[q]? = some (.label t)) : GoesTo body p q

/-- An exception carries control from a position into a handler that protects it. A join label
counts as a source of exceptions. If exceptions enter it as a handler, it does so only for those
handlers that are entered too. -/
inductive Throws (body : Body) (g : JoinGraph) (entered : Label → Prop) (p : Nat) : Nat → Prop where
  | insn (node : Node) (l : Label) (q : Nat) (hnode : body.code.nodes[p]? = some node)
      (hinsn : node.isInstruction = true) (hl : l ∈ g.protectors p)
      (hq : body.code.nodes[q]? = some (.label l)) : Throws body g entered p q
  | label (l l' : Label) (q : Nat) (hnode : body.code.nodes[p]? = some (.label l))
      (hjoin : g.isJoin l = true) (hl : l' ∈ g.protectors p)
      (hentered : ¬ entered l ∨ entered l')
      (hq : body.code.nodes[q]? = some (.label l')) : Throws body g entered p q

/-- Control can get to a position. -/
inductive Reachable (body : Body) (g : JoinGraph) (entered : Label → Prop) : Nat → Prop where
  | start : Reachable body g entered 0
  | next (p q : Nat) (hp : Reachable body g entered p) (hgoes : body.GoesTo p q) :
      Reachable body g entered q
  | caught (p q : Nat) (hp : Reachable body g entered p) (hthrows : body.Throws g entered p q) :
      Reachable body g entered q

/-- Numbers of words on the stack by position, as far as control can get. -/
structure Depths (body : Body) (g : JoinGraph) (entered : Label → Prop) (d : Nat → Nat) : Prop where
  start : d 0 = 0
  next : ∀ p node q, body.Reachable g entered p → body.code.nodes[p]? = some node →
    body.GoesTo p q → (d q : Int) = d p + node.effect
  caught : ∀ p q, body.Reachable g entered p → body.Throws g entered p q → d q = 1

/-- Where control gets to from a position in reach. -/
theorem Reachable.goes {body : Body} {g : JoinGraph} {entered : Label → Prop} {p q : Nat}
    (hp : body.Reachable g entered p) (hway : Relation.ReflTransGen body.GoesTo p q) :
    body.Reachable g entered q := by
  induction hway with
  | refl => exact hp
  | tail _ hgoes ih => exact .next _ _ ih hgoes

theorem GoesTo.exists_node {body : Body} {p q : Nat} (h : body.GoesTo p q) :
    ∃ node, body.code.nodes[p]? = some node := by
  cases h with
  | fall node hnode _ => exact ⟨node, hnode⟩
  | jump b _ _ hnode _ _ => exact ⟨.branch b, hnode⟩

/-- There is at most one depth for a position. -/
theorem Depths.unique {body : Body} {g : JoinGraph} {entered : Label → Prop} {d d' : Nat → Nat}
    (h : body.Depths g entered d) (h' : body.Depths g entered d') {p : Nat}
    (hp : body.Reachable g entered p) : d' p = d p := by
  -- the induction is on how control gets there; each edge fixes the depth at its end
  induction hp with
  | start => rw [h.start, h'.start]
  | next p q hp hgoes ih =>
    obtain ⟨node, hnode⟩ := hgoes.exists_node
    have hq := h.next p node q hp hnode hgoes
    have hq' := h'.next p node q hp hnode hgoes
    omega
  | caught p q hp hthrows ih => rw [h.caught p q hp hthrows, h'.caught p q hp hthrows]

end Body

/-! ## Join labels raise an alarm

A frame that changes a join label is passed on to the handlers that protect it. The first arrival is
always a change, so these handlers are entered with it. -/

namespace JoinGraph

variable {oracle : Oracle} {code : Code} {g g' : JoinGraph} {l : Label} {f : Frame} {p : Nat}

/-- An exception has arrived at a handler. -/
def Entered (g : JoinGraph) (l : Label) : Prop :=
  ∃ t f, g.catchType? l = some t ∧ g.Seen l (Frame.caught f t)

theorem Entered.grows (h : g.Entered l) (hgrow : g.Grows g') : g'.Entered l := by
  obtain ⟨t, f, ht, hseen⟩ := h
  exact ⟨t, f, (hgrow.catchType?_eq l).trans ht, hgrow.seen hseen⟩

/-- Where a frame has arrived at a join label that no exception enters, all handlers that protect
the label have been entered. -/
def Alarmed (g : JoinGraph) : Prop :=
  ∀ l j, g.join? l = some j → ¬ g.Entered l → j.merged.isSome = true →
    ∀ l' ∈ g.protectors j.position, g.Entered l'

/-- Feeding the handlers of a position enters them all. -/
theorem entered_of_feed (hbuilt : g.Built code) (hfeed : g.feed oracle p f = .ok g')
    (hl : l ∈ g.protectors p) : g'.Entered l := by
  rw [← (grows_feed hfeed).protectors_eq] at hl
  obtain ⟨t, ht, hseen⟩ := hbuilt.catches_of_feed hfeed l hl
  exact ⟨t, f, ht, hseen⟩

namespace Alarmed

/-- A frame that arrives for the first time has to raise the alarm, unless it arrives as an
exception. -/
theorem of_changes (h : g.Alarmed) (hgrow : g.Grows g')
    (hchange : ∀ l k, g'.join? l = some k → ¬ g'.Entered l →
      (∃ j, g.join? l = some j ∧ k.merged.isSome = j.merged.isSome)
        ∨ ∀ l' ∈ g.protectors k.position, g'.Entered l') : g'.Alarmed := by
  intro l k hk hplain hsome l' hl'
  rw [hgrow.protectors_eq] at hl'
  rcases hchange l k hk hplain with ⟨j, hj, hsame⟩ | hentered
  · obtain ⟨k', hk', hgrows⟩ := hgrow.join l j hj
    cases hk.symm.trans hk'
    rw [hgrows.position] at hl'
    rw [hsame] at hsome
    -- a handler that is not entered later has not been entered before
    have hplain' : ¬ g.Entered l := fun hentered => hplain (hentered.grows hgrow)
    exact (h l j hj hplain' hsome l' hl').grows hgrow
  · exact hentered l' hl'

/-- A join point that keeps its merged frame raises no alarm. -/
theorem setJoin {j k : JoinPoint} (h : g.Alarmed) (hj : g.join? l = some j) (hk : j.Grows k)
    (hsame : k.merged = j.merged) : (g.setJoin k).Alarmed := by
  refine h.of_changes (.setJoin hj hk) fun l' i hi _ => Or.inl ?_
  rw [join?_setJoin hj hk.label] at hi
  by_cases hl : l' = l
  · rw [if_pos hl] at hi
    cases hi
    exact ⟨j, hl ▸ hj, by rw [hsame]⟩
  · rw [if_neg hl] at hi
    exact ⟨i, hi, rfl⟩

/-- Feeding changes only handlers, which it enters. -/
theorem feed (h : g.Alarmed) (hbuilt : g.Built code) (hfeed : g.feed oracle p f = .ok g') :
    g'.Alarmed := by
  refine h.of_changes (grows_feed hfeed) fun l k hk hplain => Or.inl ⟨k, ?_, rfl⟩
  have hl : l ∉ g.protectors p := fun hl => hplain (entered_of_feed hbuilt hfeed hl)
  rw [← hk, join?_of_feedHandlers hfeed hl]

/-- A frame that arrives at a label raises the alarm there if it is the first. -/
theorem marks {changed : Bool} (h : g.Alarmed) (hbuilt : g.Built code)
    (hmarks : Marks oracle f l g g' changed) : g'.Alarmed := by
  cases hmarks with
  | known j hj _ => exact h
  | unchanged j k hj hk hsame => exact h.setJoin hj hk.grows hsame
  | changed j k g' hj hk _ hfeed =>
    have hgrow : g.Grows (g.setJoin k) := .setJoin hj hk.grows
    have hbuilt' := hbuilt.grows hgrow
    have hgrow' := grows_feed hfeed
    refine h.of_changes (hgrow.trans hgrow') fun l' i hi hplain => ?_
    by_cases heq : l' = l
    · -- the handlers of the label are fed right away
      right
      intro l'' hl''
      have hself : (g.setJoin k).join? l' = some k := heq ▸ join?_setJoin_self hj hk.label
      obtain ⟨i', hi', hgrows⟩ := hgrow'.join l' k hself
      cases hi.symm.trans hi'
      rw [hgrows.position, hk.position, ← hgrow.protectors_eq] at hl''
      exact entered_of_feed hbuilt' hfeed hl''
    · left
      have hl' : l' ∉ (g.setJoin k).protectors j.position := fun hl' =>
        hplain (entered_of_feed hbuilt' hfeed hl')
      rw [join?_of_feedHandlers hfeed hl', join?_setJoin_ne hj hk.label heq] at hi
      exact ⟨i, hi, rfl⟩

/-- A branch raises the alarm at each of its targets. -/
theorem markTargets {labels : List Label} {work work' : List (Nat × Frame)} (h : g.Alarmed)
    (hbuilt : g.Built code)
    (hmark : JoinGraph.markTargets oracle f labels g work = .ok (g', work')) : g'.Alarmed :=
  (markTargets_induction (motive := fun g₁ _ => g₁.Built code ∧ g₁.Alarmed)
    (fun _ _ _ _ _ hg hmarks => ⟨hg.1.grows hmarks.grows, hg.2.marks hg.1 hmarks⟩)
    (fun _ _ _ _ _ _ hg hmarks _ => ⟨hg.1.grows hmarks.grows, hg.2.marks hg.1 hmarks⟩)
    hmark ⟨hbuilt, h⟩).2

/-- Nothing has arrived anywhere, so there is no alarm to raise. -/
theorem of_fresh (h : g.Fresh) : g.Alarmed := by
  intro l j hj _ hsome
  rw [(h l j hj).1] at hsome
  cases hsome

end Alarmed

end JoinGraph

/-- Every move raises the alarms it has to. -/
theorem Machine.Moves.alarmed {body : Body} {m m' : Machine} (hmove : m.Moves body m')
    (hbuilt : m.graph.Built body.code) (h : m.graph.Alarmed) : m'.graph.Alarmed := by
  cases hmove with
  | take _ _ _ _ _ => exact h
  | enter j f _ _ hmem _ _ =>
    exact h.setJoin (hbuilt.join?_of_mem hmem) (JoinPoint.grows_withPending j false) rfl
  | label _ _ _ _ _ _ => exact h
  | frame _ _ _ _ _ => exact h
  | halt _ _ _ _ _ _ _ hmark => exact h.marks hbuilt hmark
  | join _ _ _ _ _ _ _ _ _ hmark _ _ => exact h.marks hbuilt hmark
  | insn _ _ _ _ _ _ _ hfeed _ => exact h.feed hbuilt hfeed
  | branch p f b g g' f' work _ _ hfeed _ hmark =>
    -- a branch feeds handlers first and marks its targets then
    have hfed := h.feed hbuilt hfeed
    have hmarked := hfed.markTargets (hbuilt.grows (JoinGraph.grows_feed hfeed)) hmark
    cases b.fallsThrough with
    | true => exact hmarked
    | false => exact hmarked

/-! ## Where a finished run has been

Execution is covered from each merged frame on, and frames of different depth do not merge. So the
depths can be read off the merged frames and counted on from there. -/

/-- All frames that have been seen at a join point have the depth of its merged frame. -/
def JoinPoint.Level (j : JoinPoint) : Prop :=
  ∀ f : Frame, f.snapshot ∈ j.seen →
    ∃ merged, j.merged = some merged ∧ f.stackWords = merged.stackWords

theorem Frame.stackWords_of_snapshot_eq {f f' : Frame} (h : f.snapshot = f'.snapshot) :
    f.stackWords = f'.stackWords :=
  congrArg wordCount (List.reverse_inj.mp (congrArg Snapshot.stack h))

/-- Frames that merge have stacks of one depth. -/
theorem JoinPoint.Level.receives {oracle : Oracle} {j k : JoinPoint} {f : Frame} (hj : j.Level)
    (hk : j.Receives oracle f k) : k.Level := by
  refine hk.relates hj (fun _ heq => Frame.stackWords_of_snapshot_eq heq)
    fun current m _ hmerge f' hf' => ?_
  obtain ⟨_, _, hleft, hright⟩ := Frame.stack_of_merge hmerge
  omega

/-- All join points of a run are level. -/
theorem Body.flow_level {body : Body} {graph : JoinGraph} (hbuilt : graph.Built body.code)
    (hfresh : graph.Fresh) : body.Flow graph (fun _ _ => True) (fun _ _ => True)
      (fun _ j => (∀ f, j.merged = some f → True) ∧ j.Level) :=
  flow_of_uniform hbuilt hfresh trivial (fun _ _ _ _ _ _ _ => trivial)
    (fun _ _ _ _ _ _ _ => trivial) (fun _ _ _ _ _ => trivial) (fun _ _ _ _ _ _ => trivial)
    (fun j _ hseen f hf => by rw [hseen] at hf; cases hf) (fun _ _ _ _ _ hj hk => hj.receives hk)
    (fun _ _ hj => hj)

/-- What is known of a finished run. -/
structure Machine.Levels (body : Body) (graph : JoinGraph) (m : Machine) : Prop where
  built : graph.Built body.code
  grows : graph.Grows m.graph
  covered : ∀ s, body.Starts m.graph m.graph.frameAt? s →
    Covered body m.graph m.maxima none s.1 s.2
  level : ∀ l f, m.graph.Seen l f →
    ∃ merged, m.graph.frameAt? l = some merged ∧ f.stackWords = merged.stackWords
  alarmed : m.graph.Alarmed

/-- All of this is known of a run that has finished. -/
theorem Machine.levels_of_run {body : Body} {graph : JoinGraph} {m : Machine} {oracle : Oracle}
    {ranges : List ProtectedRange} {fuel : Nat} (hrec : body.recovery = none)
    (hbuild : JoinGraph.build oracle body.code ranges = .ok graph)
    (hrun : run body fuel (.start body graph) = some (m, none)) : m.Levels body graph := by
  obtain ⟨hbuilt, hfresh⟩ := JoinGraph.built_of_build hbuild
  obtain ⟨hgrow, hcovered⟩ := Analysis.covered_of_run hrec hbuild hrun
  have flow := Body.flow_level hbuilt hfresh
  -- raising alarms asks for a built graph, so the two are kept together
  have hmoves : ∀ m m', (m.graph.Built body.code ∧ m.graph.Alarmed) → Moves body m m' →
      m'.graph.Built body.code ∧ m'.graph.Alarmed :=
    fun m m' hm hmove => ⟨hm.1.grows (hmove.grows hm.1), hmove.alarmed hm.1 hm.2⟩
  obtain ⟨⟨_, halarmed⟩, _⟩ := finished_invariant hrec hmoves hrun ⟨hbuilt, .of_fresh hfresh⟩
  obtain ⟨hm, _⟩ := finished_invariant hrec (fun _ _ => flow.moves) hrun flow.start
  refine ⟨hbuilt, hgrow, fun s hs => hcovered s s hs .refl, fun l f hseen => ?_, halarmed⟩
  obtain ⟨j, hj, hmem⟩ := hseen
  obtain ⟨merged, hmerged, hwords⟩ := (hm.joins l j hj).2 f hmem
  exact ⟨merged, (JoinGraph.frameAt?_of_join? hj).trans hmerged, hwords⟩

/-- The depth of the merged frame at a position, if a join label is there. -/
def JoinGraph.joinDepth? (g : JoinGraph) (code : Code) (p : Nat) : Option Nat :=
  ((code.nodes[p]?.bind Node.label?).bind g.frameAt?).map Frame.stackWords

/-- Depths read off from the merged frames, and counted on from there. -/
def JoinGraph.depthAt (g : JoinGraph) (code : Code) : Nat → Nat
  | 0 => (g.joinDepth? code 0).getD 0
  | p + 1 => (g.joinDepth? code (p + 1)).getD
      (g.depthAt code p + (code.nodes[p]?.map Node.effect).getD 0).toNat

theorem JoinGraph.depthAt_of_joinDepth? {g : JoinGraph} {code : Code} {p n : Nat}
    (h : g.joinDepth? code p = some n) : g.depthAt code p = n := by
  cases p with
  | zero => rw [depthAt, h, Option.getD_some]
  | succ p => rw [depthAt, h, Option.getD_some]

/-- The run has been at a position: something has been seen at the join label there, or execution
from there is covered, with the depth of the position. -/
def Machine.Meets (body : Body) (m : Machine) (p : Nat) : Prop :=
  (∃ l f, body.code.nodes[p]? = some (.label l) ∧ m.graph.Seen l f)
    ∨ ∃ f, Covered body m.graph m.maxima none p f ∧ f.stackWords = m.graph.depthAt body.code p

/-- Away from labels, being at a position is being there with a covered frame. -/
theorem Machine.Meets.exists_covered {body : Body} {m : Machine} {p : Nat} {node : Node}
    (hp : m.Meets body p) (hnode : body.code.nodes[p]? = some node) (hlabel : node.label? = none) :
    ∃ f, Covered body m.graph m.maxima none p f
      ∧ f.stackWords = m.graph.depthAt body.code p := by
  rcases hp with ⟨l, f, hl, _⟩ | hcovered
  · rw [hnode] at hl
    cases hl
    cases hlabel
  · exact hcovered

namespace Machine.Levels

variable {body : Body} {graph : JoinGraph} {m : Machine} {p q : Nat} {f : Frame} {l : Label}
variable {node : Node}

/-- Every frame seen at a label has the depth of its position. -/
theorem depthAt_of_seen (h : m.Levels body graph) (hnode : body.code.nodes[p]? = some (.label l))
    (hseen : m.graph.Seen l f) : m.graph.depthAt body.code p = f.stackWords := by
  obtain ⟨merged, hmerged, hwords⟩ := h.level l f hseen
  apply JoinGraph.depthAt_of_joinDepth?
  rw [JoinGraph.joinDepth?, hnode, Option.bind_some, Node.label?, Option.bind_some, hmerged,
    Option.map_some, hwords]

/-- A covered frame has the depth of a merged frame at its position, if there is one. -/
theorem getD_joinDepth? (h : m.Levels body graph)
    (hf : Covered body m.graph m.maxima none p f) :
    (m.graph.joinDepth? body.code p).getD f.stackWords = f.stackWords := by
  cases hjoin : m.graph.joinDepth? body.code p with
  | none => rfl
  | some n =>
    -- there is a depth only at a join label with a merged frame
    obtain ⟨merged, hmerged, hn⟩ := Option.map_eq_some_iff.mp hjoin
    obtain ⟨l, hl, hmerged⟩ := Option.bind_eq_some_iff.mp hmerged
    obtain ⟨node, hnode, hl⟩ := Option.bind_eq_some_iff.mp hl
    cases node with
    | label l' =>
      cases hl
      obtain ⟨j, hj, _⟩ := Option.bind_eq_some_iff.mp hmerged
      -- the frame has been seen at this label, where all frames are level with the merged one
      rcases hf.at_label hnode with ⟨_, hseen⟩ | ⟨hnone, _⟩
      · obtain ⟨merged', hmerged', hwords⟩ := h.level l f hseen
        rw [hmerged] at hmerged'
        cases hmerged'
        rw [Option.getD_some, ← hn, hwords]
      · rw [JoinGraph.isJoin_of_join? hj] at hnone
        cases hnone
    | frame _ => cases hl
    | insn _ => cases hl
    | branch _ => cases hl

theorem depthAt_zero (h : m.Levels body graph) : m.graph.depthAt body.code 0 = 0 := by
  exact h.getD_joinDepth? (h.covered _ .entry)

/-- A covered frame that is as deep as the effect of the node before it makes it. -/
theorem depthAt_succ (h : m.Levels body graph) (hnode : body.code.nodes[p]? = some node)
    (hf : Covered body m.graph m.maxima none (p + 1) f)
    (hwords : (f.stackWords : Int) = m.graph.depthAt body.code p + node.effect) :
    m.graph.depthAt body.code (p + 1) = f.stackWords := by
  rw [JoinGraph.depthAt, hnode, Option.map_some, Option.getD_some, ← hwords, Int.toNat_natCast]
  exact h.getD_joinDepth? hf

theorem meets_start (h : m.Levels body graph) : m.Meets body 0 :=
  Or.inr ⟨_, h.covered _ .entry, h.depthAt_zero.symm⟩

/-- Execution goes on behind a join label with the depth it arrives with. -/
theorem covered_behind (h : m.Levels body graph) (hnode : body.code.nodes[p]? = some (.label l))
    (hseen : m.graph.Seen l f) : ∃ merged, Covered body m.graph m.maxima none (p + 1) merged
      ∧ merged.stackWords = m.graph.depthAt body.code p := by
  obtain ⟨merged, hmerged, hwords⟩ := h.level l f hseen
  refine ⟨merged, h.covered _ (Body.starts_of_frameAt? (h.built.grows h.grows) hnode hmerged), ?_⟩
  rw [h.depthAt_of_seen hnode hseen, hwords]

/-- Behind a node that control may pass, execution is covered at the depth that the node leaves. -/
theorem covered_next (h : m.Levels body graph) (hp : m.Meets body p)
    (hnode : body.code.nodes[p]? = some node) (hfall : node.fallsThrough = true) :
    ∃ f, Covered body m.graph m.maxima none (p + 1) f
      ∧ (f.stackWords : Int) = m.graph.depthAt body.code p + node.effect := by
  cases node with
  | label l =>
    have hbehind : ∃ f, Covered body m.graph m.maxima none (p + 1) f
        ∧ f.stackWords = m.graph.depthAt body.code p := by
      -- a frame seen at the label goes on as the merged one; at other labels it just passes
      rcases hp with ⟨l', f, hl', hseen⟩ | ⟨f, hf, hwords⟩
      · exact h.covered_behind hl' hseen
      · rcases hf.at_label hnode with ⟨_, hseen⟩ | ⟨_, hrest⟩
        · exact h.covered_behind hnode hseen
        · exact ⟨f, hrest, hwords⟩
    obtain ⟨f, hf, hwords⟩ := hbehind
    exact ⟨f, hf, by rw [hwords, Node.effect, Int.add_zero]⟩
  | frame s =>
    obtain ⟨f, hf, hwords⟩ := hp.exists_covered hnode rfl
    exact ⟨f, hf.at_frame hnode, by rw [hwords, Node.effect, Int.add_zero]⟩
  | insn i =>
    obtain ⟨f, hf, hwords⟩ := hp.exists_covered hnode rfl
    obtain ⟨f', hexec, hrest⟩ := hf.at_insn hnode
    exact ⟨f', hrest, by rw [Frame.stackWords_execute hexec, hwords, Node.effect]⟩
  | branch b =>
    obtain ⟨f, hf, hwords⟩ := hp.exists_covered hnode rfl
    obtain ⟨f', hexec, _, _, hrest⟩ := hf.at_branch hnode
    -- control does not pass a `throw`, the only branch whose effect is not a difference
    have hthrow : Node.branch b ≠ .branch .throw := by rintro ⟨⟩; cases hfall
    exact ⟨f', hrest hfall, by
      rw [Frame.stackWords_executeBranch hexec, Node.depthAfter_of_ne_throw hthrow, hwords]⟩

/-- Where control goes from a position the run has been at, the run has been too. -/
theorem goes (h : m.Levels body graph) (hp : m.Meets body p)
    (hnode : body.code.nodes[p]? = some node) (hgoes : body.GoesTo p q) : m.Meets body q
      ∧ (m.graph.depthAt body.code q : Int) = m.graph.depthAt body.code p + node.effect := by
  cases hgoes with
  | fall node' hnode' hfall =>
    cases hnode.symm.trans hnode'
    obtain ⟨f, hf, hwords⟩ := h.covered_next hp hnode hfall
    have hdepth := h.depthAt_succ hnode hf hwords
    exact ⟨Or.inr ⟨f, hf, hdepth.symm⟩, by rw [hdepth, hwords]⟩
  | jump b t _ hnode' ht hq =>
    cases hnode.symm.trans hnode'
    obtain ⟨f, hf, hwords⟩ := hp.exists_covered hnode rfl
    obtain ⟨f', hexec, _, hseen, _⟩ := hf.at_branch hnode
    have hthrow : Node.branch b ≠ .branch .throw := by rintro ⟨⟩; cases ht
    -- the target has seen the frame that the branch leaves, and so has its depth
    refine ⟨Or.inl ⟨t, f', hq, hseen t ht⟩, ?_⟩
    rw [h.depthAt_of_seen hq (hseen t ht), Frame.stackWords_executeBranch hexec,
      Node.depthAfter_of_ne_throw hthrow, hwords]

/-- A handler that protects an instruction where the run has been is entered. -/
theorem entered_of_insn (h : m.Levels body graph) (hp : m.Meets body p)
    (hnode : body.code.nodes[p]? = some node) (hinsn : node.isInstruction = true)
    (hl : l ∈ graph.protectors p) : m.graph.Entered l := by
  have hlabel : node.label? = none := by
    cases node with
    | label _ => cases hinsn
    | _ => rfl
  obtain ⟨f, hf, _⟩ := hp.exists_covered hnode hlabel
  rw [← h.grows.protectors_eq] at hl
  obtain ⟨t, ht, hseen⟩ := hf.admits.catches hnode hinsn l hl
  exact ⟨t, f, ht, hseen⟩

/-- A handler that an exception gets to from a position the run has been at has been entered. -/
theorem entered_of_throws (h : m.Levels body graph) (hp : m.Meets body p)
    (hthrows : body.Throws graph m.graph.Entered p q) :
    ∃ l, body.code.nodes[q]? = some (.label l) ∧ m.graph.Entered l := by
  cases hthrows with
  | insn node l _ hnode hinsn hl hq => exact ⟨l, hq, h.entered_of_insn hp hnode hinsn hl⟩
  | label l l' _ hnode hjoin hl hentered hq =>
    refine ⟨l', hq, ?_⟩
    rcases hentered with hplain | hentered
    · have hseen : ∃ f, m.graph.Seen l f := by
        rcases hp with ⟨l₁, f, hl₁, hseen⟩ | ⟨f, hf, _⟩
        · cases hnode.symm.trans hl₁
          exact ⟨f, hseen⟩
        · rw [← h.grows.isJoin] at hjoin
          exact ⟨f, hf.admits.arrives_label hnode hjoin⟩
      obtain ⟨f, hseen⟩ := hseen
      -- something has arrived at the label and not as an exception, so the alarm was raised
      obtain ⟨merged, hmerged, _⟩ := h.level l f hseen
      obtain ⟨j, hj, hmerged⟩ := Option.bind_eq_some_iff.mp hmerged
      have hposition := (h.built.grows h.grows).position_of_node hnode hj
      refine h.alarmed l j hj hplain (Option.isSome_of_eq_some hmerged) l' ?_
      rw [hposition, h.grows.protectors_eq]
      exact hl
    · exact hentered

/-- The run has been at every handler that was entered, with one word on the stack. -/
theorem meets_caught (h : m.Levels body graph) (hq : body.code.nodes[q]? = some (.label l))
    (hentered : m.graph.Entered l) : m.Meets body q ∧ m.graph.depthAt body.code q = 1 := by
  obtain ⟨t, f, _, hseen⟩ := hentered
  exact ⟨Or.inl ⟨l, _, hq, hseen⟩, h.depthAt_of_seen hq hseen⟩

/-- The run has been wherever control can get to. -/
theorem meets (h : m.Levels body graph) (hp : body.Reachable graph m.graph.Entered p) :
    m.Meets body p := by
  induction hp with
  | start => exact h.meets_start
  | next p q _ hgoes ih =>
    obtain ⟨node, hnode⟩ := hgoes.exists_node
    exact (h.goes ih hnode hgoes).1
  | caught p q _ hthrows ih =>
    obtain ⟨l, hq, hentered⟩ := h.entered_of_throws ih hthrows
    exact (h.meets_caught hq hentered).1

/-- The depths that the run has met fit all edges. -/
theorem depths (h : m.Levels body graph) :
    body.Depths graph m.graph.Entered (m.graph.depthAt body.code) where
  start := h.depthAt_zero
  next := fun _ _ _ hp hnode hgoes => (h.goes (h.meets hp) hnode hgoes).2
  caught := fun _ _ hp hthrows => by
    obtain ⟨l, hq, hentered⟩ := h.entered_of_throws (h.meets hp) hthrows
    exact (h.meets_caught hq hentered).2

/-- If every handler that protects the label of a handler which exceptions enter also protects an
instruction that control gets to from there, no handler is left out. -/
theorem reachable_of_shared (h : m.Levels body graph)
    (hshared : ∀ (p : Nat) l l', body.code.nodes[p]? = some (.label l) →
      m.graph.Entered l → l' ∈ graph.protectors p →
      ∃ q node, Relation.ReflTransGen body.GoesTo p q ∧ body.code.nodes[q]? = some node
        ∧ node.isInstruction = true ∧ l' ∈ graph.protectors q)
    (hp : body.Reachable graph (fun _ => True) p) : body.Reachable graph m.graph.Entered p := by
  induction hp with
  | start => exact .start
  | next p q _ hgoes ih => exact .next p q ih hgoes
  | caught p q _ hthrows ih =>
    cases hthrows with
    | insn node l _ hnode hinsn hl hq => exact .caught p q ih (.insn node l q hnode hinsn hl hq)
    | label l l' _ hnode hjoin hl _ hq =>
      refine .caught p q ih (.label l l' q hnode hjoin hl ?_ hq)
      -- if exceptions enter here, the instruction further on feeds the same handler
      by_cases hentered : m.graph.Entered l
      · obtain ⟨r, node, hway, hr, hinsn, hl'⟩ := hshared p l l' hnode hentered hl
        exact Or.inr (h.entered_of_insn (h.meets (ih.goes hway)) hr hinsn hl')
      · exact Or.inl hentered

end Machine.Levels

end JvmFrames
