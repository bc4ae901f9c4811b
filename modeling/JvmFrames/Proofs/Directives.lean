import Mathlib.Data.List.Nodup
import JvmFrames.Proofs.Anchors
import JvmFrames.Proofs.Provenance
import JvmFrames.Proofs.StackDepth

/-!
# One frame for each reached join point

A run of labels with no instruction in between shares one directive, that of its last join point. If
any join point of the run is reached, execution goes on from there to the end of the run, so the
last one is reached as well (`Machine.Levels.leadsToAnchor`) and has its directive. Each directive
describes another instruction, and their compressed frames lead from one snapshot to the next.
-/

namespace JvmFrames

/-! ## Compressed frames in a row

Every directive has a frame that is told from the snapshot before it. Read one after the other they
give all snapshots. -/

/-- The snapshots that frames stand for, each after the one before. -/
def StackMapFrame.replay {α : Type} (previous : Snapshot α) :
    List (StackMapFrame α) → Option (List (Snapshot α))
  | [] => some []
  | f :: rest => do
    let s ← f.apply previous
    let later ← replay s rest
    return s :: later

theorem map_directivesFrom (previous : Snapshot VType) (pairs : List (Label × Snapshot VType)) :
    (directivesFrom previous pairs).map (fun d => (d.label, d.snapshot)) = pairs := by
  induction pairs generalizing previous with
  | nil => rfl
  | cons pair rest ih => exact congrArg (pair :: ·) (ih pair.2)

/-- Frames that were compressed in a row can be read in a row. -/
theorem replay_directivesFrom (previous : Snapshot VType) (pairs : List (Label × Snapshot VType)) :
    StackMapFrame.replay previous ((directivesFrom previous pairs).map (·.frame))
      = some ((directivesFrom previous pairs).map (·.snapshot)) := by
  induction pairs generalizing previous with
  | nil => rfl
  | cons pair rest ih =>
    obtain ⟨l, s⟩ := pair
    rw [directivesFrom, List.map_cons, StackMapFrame.replay, Snapshot.apply_compress, List.map_cons]
    show (StackMapFrame.replay s _).bind _ = _
    rw [ih s]
    rfl

/-! ## Instructions and the labels before them

A directive stands at a label but is about an instruction, the first one behind it. The anchor of an
instruction is the last join label before it, with no instruction in between. -/

/-- The instruction at `q` is the first one behind `p`. -/
structure Code.NextExecuted (code : Code) (p q : Nat) : Prop where
  lt : p < q
  executes : code.Executes q
  first : ∀ r, p < r → r < q → ¬ code.Executes r

/-- A directive gives the frame of the first instruction behind its label. -/
def Directive.Describes (code : Code) (d : Directive) (q : Nat) : Prop :=
  ∃ p, code.nodes[p]? = some (.label d.label) ∧ code.NextExecuted p q

/-- No join label stands between this one and `q`. -/
def JoinGraph.LastJoin (g : JoinGraph) (code : Code) (l : Label) (q : Nat) : Prop :=
  ∃ p, code.nodes[p]? = some (.label l) ∧ g.isJoin l = true ∧ p < q
    ∧ ∀ r l', p < r → r < q → code.nodes[r]? = some (.label l') → g.isJoin l' = false

/-- The first label is placed before the second. -/
def Code.InOrder (code : Code) (l l' : Label) : Prop :=
  ∃ p p' : Nat, code.nodes[p]? = some (.label l) ∧ code.nodes[p']? = some (.label l') ∧ p < p'

/-- There is one first instruction behind a position. -/
theorem Code.NextExecuted.unique {code : Code} {p q q' : Nat} (h : code.NextExecuted p q)
    (h' : code.NextExecuted p q') : q = q' := by
  rcases Nat.lt_trichotomy q q' with hlt | heq | hlt
  · exact absurd h.executes (h'.first q h.lt hlt)
  · exact heq
  · exact absurd h'.executes (h.first q' h'.lt hlt)

namespace JoinGraph.Anchored

variable {g : JoinGraph} {code : Code} {l l' : Label} {p p' q q' : Nat}

/-- Nothing is executed between an instruction and its anchor. -/
theorem not_executes (h : g.Anchored code l p q) (r : Nat) (hpr : p < r) (hrq : r < q) :
    ¬ code.Executes r := by
  rintro ⟨node, hnode, hinsn⟩
  obtain ⟨node', hnode', hskips⟩ := h.skipped r hpr hrq
  rw [hnode] at hnode'
  cases hnode'
  cases node with
  | label l => cases hinsn
  | frame f => cases hinsn
  | insn i => cases hskips
  | branch b => cases hskips

theorem nextExecuted (h : g.Anchored code l p q) (hexec : code.Executes q) : code.NextExecuted p q :=
  ⟨h.lt, hexec, h.not_executes⟩

/-- The anchor of an instruction is the last join label before it. -/
theorem lastJoin (h : g.Anchored code l p q) : g.LastJoin code l q := by
  refine ⟨p, h.node, h.join, h.lt, fun r l' hpr hrq hnode => ?_⟩
  obtain ⟨node, hnode', hskips⟩ := h.skipped r hpr hrq
  rw [hnode] at hnode'
  cases hnode'
  simpa [skips] using hskips

/-- The labels before two instructions are in the order of the instructions: the first of these
comes before the second label. -/
theorem lt_of_lt (h : g.Anchored code l p q) (hexec : code.Executes q)
    (h' : g.Anchored code l' p' q') (hlt : q < q') : p < p' := by
  have hq : ¬ p' < q := fun hp' => h'.not_executes q hp' hlt hexec
  have hne : q ≠ p' := by
    rintro rfl
    obtain ⟨node, hnode, hinsn⟩ := hexec
    rw [h'.node] at hnode
    cases hnode
    cases hinsn
  have := h.lt
  omega

end JoinGraph.Anchored

/-! ## Every reached run of labels has a reached anchor

Execution that gets to one label of a run goes on to the next one, so no run is left in the middle.
-/

/-- The first instruction from a position on has an anchor that has been reached. -/
def JoinGraph.LeadsToAnchor (g : JoinGraph) (code : Code) (p : Nat) : Prop :=
  ∃ q l, p ≤ q ∧ code.Executes q ∧ (∀ r, p ≤ r → r < q → ¬ code.Executes r)
    ∧ g.anchorAt code q = some l ∧ ∃ f, g.frameAt? l = some f

/-- Labels and frames are passed on the way to an anchor. -/
theorem JoinGraph.LeadsToAnchor.pass {g : JoinGraph} {code : Code} {p : Nat} {node : Node}
    (h : g.LeadsToAnchor code (p + 1)) (hnode : code.nodes[p]? = some node)
    (hmark : node.isInstruction = false) : g.LeadsToAnchor code p := by
  obtain ⟨q, l, hpq, hexec, hfirst, hanchor⟩ := h
  refine ⟨q, l, Nat.le_of_succ_le hpq, hexec, fun r hpr hrq => ?_, hanchor⟩
  rcases Nat.lt_or_eq_of_le hpr with hlt | rfl
  · exact hfirst r hlt hrq
  · rintro ⟨node', hnode', hinsn⟩
    rw [hnode] at hnode'
    cases hnode'
    rw [hmark] at hinsn
    cases hinsn

/-- From where a finished run has been, with a reached join label before it, execution gets to an
instruction whose anchor is reached too. -/
theorem Machine.Levels.leadsToAnchor {body : Body} {graph : JoinGraph} {m : Machine}
    (h : m.Levels body graph) {p : Nat} {f : Frame} {l : Label}
    (hf : Covered body m.graph m.maxima none p f)
    (hanchor : m.graph.anchorAt body.code p = some l) (hl : ∃ f, m.graph.frameAt? l = some f) :
    m.graph.LeadsToAnchor body.code p := by
  -- the induction is on what is left of the body
  induction hleft : body.code.nodes.size - p generalizing p f l with
  | zero =>
    have hat := hf.at_node
    rw [Array.getElem?_eq_none (by omega)] at hat
    exact hat.elim
  | succ left ih =>
    have hat := hf.at_node
    cases hnode : body.code.nodes[p]? with
    | none =>
      simp only [hnode] at hat
    | some node =>
      simp only [hnode] at hat
      have hstop : node.isInstruction = true → m.graph.LeadsToAnchor body.code p := fun hinsn =>
        ⟨p, l, Nat.le_refl p, ⟨node, hnode, hinsn⟩, fun r hpr hrp => by omega, hanchor, hl⟩
      -- only a label may change the anchor, and then to one that execution has just reached
      cases node with
      | insn i => exact hstop rfl
      | branch b => exact hstop rfl
      | frame s =>
        have hnext : m.graph.anchorAt body.code (p + 1) = some l := by
          rw [JoinGraph.anchorAt, hnode]
          exact hanchor
        exact (ih hat hnext hl (by omega)).pass hnode rfl
      | label l' =>
        rcases hat with ⟨hjoin, hseen⟩ | ⟨hjoin, hrest⟩
        · -- the label is reached, and execution goes on from there with its merged frame
          obtain ⟨merged, hmerged, _⟩ := h.level l' f hseen
          have hcovered := h.covered _ (Body.starts_of_frameAt? (h.built.grows h.grows) hnode hmerged)
          have hnext : m.graph.anchorAt body.code (p + 1) = some l' := by
            rw [JoinGraph.anchorAt, hnode, JoinGraph.anchorAfter, if_pos hjoin]
          exact (ih hcovered hnext ⟨merged, hmerged⟩ (by omega)).pass hnode rfl
        · have hnext : m.graph.anchorAt body.code (p + 1) = some l := by
            rw [JoinGraph.anchorAt, hnode, JoinGraph.anchorAfter, hjoin]
            exact hanchor
          exact (ih hrest hnext hl (by omega)).pass hnode rfl

/-! ## What the directives say

The directives of a result are the reached anchors with their merged frames. So all that is said of
anchors holds of directives. -/

section

variable {g : JoinGraph} {code : Code} {l : Label} {q : Nat} {s : Snapshot VType}

/-- An anchor is reached if it has a merged frame. -/
theorem mem_reachedAnchors_iff :
    (q, l, s) ∈ reachedAnchors g code ↔ code.Executes q ∧ g.anchorAt code q = some l
      ∧ ∃ f, g.frameAt? l = some f ∧ f.snapshot = s := by
  unfold reachedAnchors
  rw [List.mem_filterMap]
  constructor
  · rintro ⟨⟨q', l'⟩, hmem, hmap⟩
    obtain ⟨f, hf, heq⟩ := Option.map_eq_some_iff.mp hmap
    cases heq
    obtain ⟨hexec, hanchor⟩ := mem_anchors_iff.mp hmem
    exact ⟨hexec, hanchor, f, hf, rfl⟩
  · rintro ⟨hexec, hanchor, f, hf, rfl⟩
    refine ⟨(q, l), mem_anchors_iff.mpr ⟨hexec, hanchor⟩, ?_⟩
    simp only [hf, Option.map_some]

/-- The anchors are placed in the order of the instructions they are for. -/
theorem pairwise_reachedAnchors (g : JoinGraph) (code : Code) :
    (reachedAnchors g code).Pairwise fun a b => code.InOrder a.2.1 b.2.1 := by
  have hspots := List.pairwise_map.mp (spots_reachedAnchors g code).pairwise
  refine hspots.imp_of_mem ?_
  rintro ⟨q, l, s⟩ ⟨q', l', s'⟩ hmem hmem' hlt
  obtain ⟨hexec, hanchor, _⟩ := mem_reachedAnchors_iff.mp hmem
  obtain ⟨_, hanchor', _⟩ := mem_reachedAnchors_iff.mp hmem'
  obtain ⟨p, hp⟩ := JoinGraph.anchorAt_eq_some_iff.mp hanchor
  obtain ⟨p', hp'⟩ := JoinGraph.anchorAt_eq_some_iff.mp hanchor'
  exact ⟨p, p', hp.node, hp'.node, hp.lt_of_lt hexec hp' hlt⟩

end

namespace Analysis

variable {fuel : Nat} {oracle : Oracle} {settings : Settings} {method : Method} {code : Code}
variable {ranges : List ProtectedRange} {report : Report} {analysis : Analysis}
variable {m : Machine} {woven : Code}

theorem map_frames_of_conclude (h : conclude method code m = .ok (analysis, woven)) :
    analysis.frames.map (fun d => (d.label, d.snapshot))
      = (reachedAnchors m.graph code).map (·.2) := by
  obtain ⟨_, _, rfl, _⟩ := conclude_eq_ok h
  exact map_directivesFrom _ _

/-- The directives are in the order of their labels. -/
theorem pairwise_frames_of_conclude (h : conclude method code m = .ok (analysis, woven)) :
    (analysis.frames.map (·.label)).Pairwise code.InOrder := by
  -- both lists are mapped to the same pairs
  have hlabels : analysis.frames.map (·.label)
      = ((reachedAnchors m.graph code).map (·.2)).map (·.1) := by
    rw [← map_frames_of_conclude h, List.map_map]
    rfl
  rw [hlabels, List.pairwise_map, List.pairwise_map]
  exact pairwise_reachedAnchors m.graph code

/-- With labels placed once, no two directives have the same one. -/
theorem eq_of_label_eq (h : conclude method code m = .ok (analysis, woven))
    (hnodup : code.labels.Nodup) {d d' : Directive} (hd : d ∈ analysis.frames)
    (hd' : d' ∈ analysis.frames) (hlabel : d.label = d'.label) : d = d' := by
  have hlabels : (analysis.frames.map (·.label)).Nodup := by
    refine (pairwise_frames_of_conclude h).imp ?_
    rintro l l' ⟨p, p', hp, hp', hlt⟩ rfl
    exact absurd (Code.eq_of_label hnodup hp hp') (Nat.ne_of_lt hlt)
  exact List.inj_on_of_nodup_map hlabels hd hd' hlabel

/-- The directive for an instruction whose anchor has been reached, and no other describes it. -/
theorem directive_of_anchor (h : conclude method code m = .ok (analysis, woven))
    (hnodup : code.labels.Nodup) {q : Nat} {l : Label} {f : Frame} (hexec : code.Executes q)
    (hanchor : m.graph.anchorAt code q = some l) (hf : m.graph.frameAt? l = some f) :
    ∃ d ∈ analysis.frames, d.label = l ∧ d.snapshot = f.snapshot ∧ d.Describes code q
      ∧ ∀ d' ∈ analysis.frames, d'.Describes code q → d' = d := by
  have hmem : (l, f.snapshot) ∈ analysis.frames.map (fun d => (d.label, d.snapshot)) := by
    rw [map_frames_of_conclude h]
    exact List.mem_map.mpr ⟨(q, l, f.snapshot),
      mem_reachedAnchors_iff.mpr ⟨hexec, hanchor, f, hf, rfl⟩, rfl⟩
  obtain ⟨d, hd, heq⟩ := List.mem_map.mp hmem
  obtain ⟨rfl, hsnapshot⟩ := Prod.mk.inj heq
  obtain ⟨p, hp⟩ := JoinGraph.anchorAt_eq_some_iff.mp hanchor
  refine ⟨d, hd, rfl, hsnapshot, ⟨p, hp.node, hp.nextExecuted hexec⟩, ?_⟩
  rintro d' hd' ⟨p', hp', hnext'⟩
  -- the label of the other directive is the anchor of the instruction it describes
  have hmem' : (d'.label, d'.snapshot) ∈ (reachedAnchors m.graph code).map (·.2) := by
    rw [← map_frames_of_conclude h]
    exact List.mem_map.mpr ⟨d', hd', rfl⟩
  obtain ⟨⟨q', l', s'⟩, hreached, hpair⟩ := List.mem_map.mp hmem'
  cases hpair
  obtain ⟨hexec', hanchor', _⟩ := mem_reachedAnchors_iff.mp hreached
  obtain ⟨p'', hp''⟩ := JoinGraph.anchorAt_eq_some_iff.mp hanchor'
  have hsame : q' = q := by
    have hnext := hp''.nextExecuted hexec'
    rw [Code.eq_of_label hnodup hp''.node hp'] at hnext
    exact hnext.unique hnext'
  rw [hsame, hanchor] at hanchor'
  exact eq_of_label_eq h hnodup hd' hd (Option.some.inj hanchor').symm

/-- After a successful analysis each reached join point has an instruction behind it, and exactly
one directive describes the first of these. The directive is that of the last join point before the
instruction; this has been reached too, and the snapshot is that of its merged frame. The directives
are in the order of their labels, none of them is for a join point that was not reached, and their
compressed frames, applied one after the other from the frame on entry, give their snapshots. -/
theorem one_directive_per_reached_instruction (hrec : settings.recovery = none)
    (h : analyze fuel oracle settings method code ranges = some report)
    (hok : report.result = .ok analysis) :
    ∃ graph m, JoinGraph.build oracle (prepare settings code) ranges = .ok graph
      ∧ Machine.run (bodyOf oracle settings method code) fuel
          (.start (bodyOf oracle settings method code) graph) = some (m, none)
      ∧ (∀ l f, m.graph.frameAt? l = some f →
          ∃ p q : Nat, (prepare settings code).nodes[p]? = some (.label l)
            ∧ (prepare settings code).NextExecuted p q
            ∧ ∃ d ∈ analysis.frames, d.Describes (prepare settings code) q
              ∧ (∀ d' ∈ analysis.frames, d'.Describes (prepare settings code) q → d' = d)
              ∧ m.graph.LastJoin (prepare settings code) d.label q
              ∧ ∃ f', m.graph.frameAt? d.label = some f' ∧ d.snapshot = f'.snapshot)
      ∧ (analysis.frames.map (·.label)).Pairwise (prepare settings code).InOrder
      ∧ (∀ d ∈ analysis.frames, ∃ f, m.graph.frameAt? d.label = some f)
      ∧ analysis.entry = (Frame.entry method).snapshot
      ∧ StackMapFrame.replay analysis.entry (analysis.frames.map (·.frame))
          = some (analysis.frames.map (·.snapshot)) := by
  obtain ⟨graph, m, woven, hbuild, hrun, hconclude, _⟩ := concluded_of_ok h hok
  have hrec' : (bodyOf oracle settings method code).recovery = none := hrec
  have hm := Machine.levels_of_run hrec' hbuild hrun
  have hnodup := JoinGraph.nodup_labels_of_build hbuild
  refine ⟨graph, m, hbuild, hrun, fun l f hf => ?_, pairwise_frames_of_conclude hconclude,
    fun d hd => ?_, ?_⟩
  · -- execution goes on from the reached label until it comes to an instruction
    have hbuilt := hm.built.grows hm.grows
    obtain ⟨j, hj, _⟩ := Option.bind_eq_some_iff.mp hf
    have hnode : (prepare settings code).nodes[j.position]? = some (.label l) :=
      (hbuilt.placed l j.position).mp (hbuilt.position l j hj)
    have hanchor : m.graph.anchorAt (prepare settings code) (j.position + 1) = some l := by
      rw [JoinGraph.anchorAt, hnode, JoinGraph.anchorAfter,
        if_pos (JoinGraph.isJoin_of_join? hj)]
    obtain ⟨q, l', hpq, hexec, hfirst, hanchor', f', hf'⟩ := hm.leadsToAnchor
      (hm.covered _ (Body.starts_of_frameAt? hbuilt hnode hf)) hanchor ⟨f, hf⟩
    obtain ⟨d, hd, rfl, hsnapshot, hdescribes, hunique⟩ :=
      directive_of_anchor hconclude hnodup hexec hanchor' hf'
    obtain ⟨p', hp'⟩ := JoinGraph.anchorAt_eq_some_iff.mp hanchor'
    exact ⟨j.position, q, hnode, ⟨hpq, hexec, hfirst⟩, d, hd, hdescribes, hunique, hp'.lastJoin,
      f', hf', hsnapshot⟩
  · obtain ⟨f, hf, _⟩ := frameAt?_of_conclude hconclude hd
    exact ⟨f, hf⟩
  · obtain ⟨_, _, rfl, _⟩ := conclude_eq_ok hconclude
    exact ⟨rfl, replay_directivesFrom _ _⟩

end Analysis

/-! ## A crowd of labels

One directive is enough for several labels before one instruction. -/

namespace Crowd

/-- Four labels before one instruction, with an old frame among them. The first is jumped to from
code that is never reached, the second is reached by a jump, the third by falling through, and the
last is no join point. The loop at the end is never reached. -/
def code : Code where
  nodes := #[
    .branch (.goto ⟨0⟩),
    .label ⟨1⟩,
    .label ⟨0⟩,
    .frame (.chop 1),
    .label ⟨2⟩,
    .label ⟨3⟩,
    .branch .returnVoid,
    .branch (.goto ⟨1⟩),
    .branch (.goto ⟨2⟩),
    .label ⟨4⟩,
    .branch (.goto ⟨4⟩)]
  nextLabel := 5

/-- The crowd is analyzed with one directive, at the last join point of the run. -/
theorem analyze_ok : ∃ report analysis,
    analyze 40 Hierarchy.javaLang.common .plain Detour.method code [] = some report
      ∧ report.result = .ok analysis ∧ analysis.frames = [⟨⟨2⟩, ⟨[], []⟩, .same⟩] :=
  ⟨_, _, rfl, rfl, rfl⟩

end Crowd

namespace Analysis

/-- The crowd has one directive, and it describes the instruction behind the four labels. -/
theorem one_directive_per_reached_instruction_crowd :
    ∃ report analysis,
      analyze 40 Hierarchy.javaLang.common .plain Detour.method Crowd.code [] = some report
      ∧ report.result = .ok analysis
      ∧ ∃ p q d, (prepare .plain Crowd.code).nodes[p]? = some (.label ⟨2⟩)
        ∧ (prepare .plain Crowd.code).NextExecuted p q
        ∧ d ∈ analysis.frames ∧ d.Describes (prepare .plain Crowd.code) q := by
  obtain ⟨report, analysis, h, hok, hframes⟩ := Crowd.analyze_ok
  obtain ⟨graph, m, _, _, hcovered, _, hreached, _⟩ :=
    one_directive_per_reached_instruction rfl h hok
  obtain ⟨f, hf⟩ := hreached ⟨⟨2⟩, ⟨[], []⟩, .same⟩ (by rw [hframes]; exact List.mem_singleton_self _)
  obtain ⟨p, q, hp, hnext, d, hd, hdescribes, _⟩ := hcovered ⟨2⟩ f hf
  exact ⟨report, analysis, h, hok, p, q, d, hp, hnext, hd, hdescribes⟩

end Analysis

end JvmFrames
