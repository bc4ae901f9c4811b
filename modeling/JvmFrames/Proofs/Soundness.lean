import JvmFrames.Proofs.Closure
import JvmFrames.Proofs.Hierarchy
import JvmFrames.Proofs.Monotone
import JvmFrames.Proofs.Values

/-!
# The merged frames stand for all paths

`Body.Path` is execution with no merging at all: one frame is carried along one path, through jumps
and into handlers, as often as one likes. When analysis succeeds on a body that allocates nothing,
no path can get stuck, and wherever a path gets to a join point, its frame may be assigned to the
merged frame there.

The analysis itself has followed some path to every position a path can get to, with a frame that
stands for the frame of the path (`Body.Path.exists_covered`). This is kept through straight
execution, since execution is monotone, and through join points, since their merged frames stand for
every frame that has been seen there (`JoinPoint.Bounds`). An allocation would break the latter: it
merges with an object of its class to the allocation, which is not above the object.
-/

namespace JvmFrames

/-- Control gets to a position with a frame, along some path from the start of the body. It may fall
through, jump to any target of a branch, or leave an instruction for a handler that protects it,
with the locals from before the instruction. -/
inductive Body.Path (body : Body) (g : JoinGraph) : Nat → Frame → Prop where
  | entry : Path body g 0 (Frame.entry body.method)
  | label (p : Nat) (f : Frame) (l : Label) (hpath : Path body g p f)
      (hnode : body.code.nodes[p]? = some (.label l)) : Path body g (p + 1) f
  | frame (p : Nat) (f : Frame) (s : StackMapFrame VType) (hpath : Path body g p f)
      (hnode : body.code.nodes[p]? = some (.frame s)) : Path body g (p + 1) f
  | insn (p : Nat) (f f' : Frame) (i : Instruction) (hpath : Path body g p f)
      (hnode : body.code.nodes[p]? = some (.insn i))
      (hexec : f.execute body.method.className (body.code.siteBefore? p) i = .ok f') :
      Path body g (p + 1) f'
  | fall (p : Nat) (f f' : Frame) (b : Branch) (hpath : Path body g p f)
      (hnode : body.code.nodes[p]? = some (.branch b)) (hfall : b.fallsThrough = true)
      (hexec : f.executeBranch body.method.descriptor.result b = .ok f') : Path body g (p + 1) f'
  | jump (p : Nat) (f f' : Frame) (b : Branch) (t : Label) (q : Nat) (hpath : Path body g p f)
      (hnode : body.code.nodes[p]? = some (.branch b)) (ht : t ∈ b.targets)
      (hq : g.position t = .ok q)
      (hexec : f.executeBranch body.method.descriptor.result b = .ok f') : Path body g q f'
  | throw (p : Nat) (f : Frame) (node : Node) (l : Label) (t : RefType) (q : Nat)
      (hpath : Path body g p f) (hnode : body.code.nodes[p]? = some node)
      (hinsn : node.isInstruction = true) (hl : l ∈ g.protectors p)
      (ht : g.catchType? l = some t) (hq : g.position l = .ok q) : Path body g q (f.caught t)

/-! ## Merged frames are bounds

Without allocations a merge is above both of what is merged. So the merged frame of a join point
stays above all frames that have arrived there. -/

namespace VType

variable {v w : VType}

/-- Plain values, elements and completed values are no allocations. -/
theorem closed_settled (this : ClassName) : VType.Closed Settled this where
  top := nofun
  integer := nofun
  float := nofun
  long := nofun
  double := nofun
  null := nofun
  element := fun v _ => by
    cases v with
    | object t =>
      unfold elementOf
      simp only
      split
      · nofun
      · nofun
    | _ => nofun
  constructed := fun v hv => by
    -- the completed value is an object, and all others were settled before
    cases v with
    | uninitializedThis => nofun
    | uninitialized u => nofun
    | _ => exact hv

/-- Merging makes no allocation where there was none. -/
theorem Settled.merge (oracle : Oracle) (hv : v.Settled) (hw : w.Settled) :
    (v.merge oracle w).Settled := by
  unfold VType.merge meet
  split
  · nofun
  · nofun
  · split
    · exact hv
    · split
      · nofun
      · nofun
      · exact absurd rfl (hv _)
      · exact absurd rfl (hw _)
      · nofun
      · nofun

end VType

/-- Whatever has been seen at a join point may be assigned to its merged frame. -/
def JoinPoint.Bounds (oracle : Oracle) (j : JoinPoint) : Prop :=
  ∀ f : Frame, f.snapshot ∈ j.seen → ∃ merged, j.merged = some merged ∧ f.Assignable oracle merged

/-- A merged frame that bounds what was seen bounds the next arrival too, once it is merged. -/
theorem JoinPoint.Bounds.receives {oracle : Oracle} {j k : JoinPoint} {f : Frame}
    (hlaw : Oracle.Lawful oracle) (hj : j.Bounds oracle)
    (hmerged : ∀ m, j.merged = some m → m.Holds VType.Settled) (hf : f.Holds VType.Settled)
    (hk : j.Receives oracle f k) : k.Bounds oracle := by
  refine hk.relates hj (fun _ heq => .of_snapshot_eq heq) fun current m hcurrent hmerge f' hf' => ?_
  obtain ⟨hleft, hright⟩ := Frame.assignable_of_merge hlaw (hmerged current hcurrent) hf hmerge
  rcases hf' with hbelow | hbelow
  · exact hbelow.trans hlaw hleft
  · exact hbelow.trans hlaw hright

namespace Body

variable {body : Body} {graph : JoinGraph} {ranges : List ProtectedRange} {fuel : Nat} {m : Machine}

/-- A body that allocates nothing has settled values only, and its join points bound what they have
seen. -/
theorem flow_bounds (hlaw : Oracle.Lawful body.oracle)
    (hnew : ∀ c, Node.insn (.new c) ∉ body.code.nodes)
    (hbuilt : graph.Built body.code) (hfresh : graph.Fresh) :
    body.Flow graph (fun _ => Frame.Holds VType.Settled) (fun _ => Frame.Holds VType.Settled)
      (fun _ j => (∀ f, j.merged = some f → f.Holds VType.Settled) ∧ j.Bounds body.oracle) := by
  have hclosed := VType.closed_settled body.method.className
  refine flow_of_uniform hbuilt hfresh ?entry ?insn ?branch ?caught ?merge ?unreached ?receive
    ?pending
  case entry =>
    exact Frame.holds_entry hclosed (fun _ => VType.receiver_of nofun nofun _) fun _ _ => nofun
  case insn =>
    intro p i f f' hnode hf hexec
    refine hf.perform hclosed.top (hclosed.instruction (fun _ _ => nofun) ?_) hexec
    -- there is no `new` in the body
    rintro c l rfl _
    exact absurd (Array.mem_of_getElem? hnode) (hnew c)
  case branch =>
    intro p b f f' hnode hf hexec
    exact hf.perform hclosed.top (b.supplies _ _) hexec
  case caught =>
    intro l t f _ hf
    refine ⟨hf.1, fun v hv => ?_⟩
    rw [List.mem_singleton.mp hv]
    nofun
  case merge =>
    intro f g m hf hg hmerge
    exact hf.merge hclosed.top (fun v w hv hw => hv.merge body.oracle hw) hg hmerge
  -- nothing has been seen there
  case unreached =>
    intro j _ hseen f hf
    rw [hseen] at hf
    cases hf
  case receive =>
    intro j k f hmerged hf hj hk
    exact hj.receives hlaw hmerged hf hk
  case pending => exact fun j b hj => hj

/-- All that a finished run has seen at a label is below its merged frame. -/
theorem lands_of_seen (hlaw : Oracle.Lawful body.oracle)
    (hnew : ∀ c, Node.insn (.new c) ∉ body.code.nodes) (hrec : body.recovery = none)
    (hbuilt : graph.Built body.code) (hfresh : graph.Fresh)
    (hrun : Machine.run body fuel (.start body graph) = some (m, none)) {l : Label} {f : Frame}
    (hseen : m.graph.Seen l f) : Lands body.oracle m.graph.frameAt? l f := by
  have flow := flow_bounds hlaw hnew hbuilt hfresh
  obtain ⟨hm, _⟩ := Machine.finished_invariant hrec (fun _ _ => flow.moves) hrun flow.start
  obtain ⟨j, hj, hmem⟩ := hseen
  obtain ⟨merged, hmerged, hbelow⟩ := (hm.joins l j hj).2 f hmem
  exact ⟨merged, (JoinGraph.frameAt?_of_join? hj).trans hmerged, hbelow⟩

end Body

/-! ## The analysis follows every path

The induction is on the path. At each of its positions there is a frame of the analysis above the
frame of the path, and each step of the path is one that the analysis has taken as well. -/

/-- What is known of a finished run. Execution from all starting points is covered, and merged
frames are bounds. -/
structure Machine.Settles (body : Body) (graph : JoinGraph) (m : Machine) : Prop where
  built : graph.Built body.code
  grows : graph.Grows m.graph
  covered : ∀ s, body.Starts m.graph m.graph.frameAt? s →
    Covered body m.graph m.maxima none s.1 s.2
  lands : ∀ l f, m.graph.Seen l f → Lands body.oracle m.graph.frameAt? l f

namespace Machine.Settles

variable {body : Body} {graph : JoinGraph} {m : Machine} {p : Nat} {f k : Frame} {l : Label}

/-- Execution from behind a label, with its merged frame, is covered. -/
theorem covered_merged (h : m.Settles body graph) {merged : Frame}
    (hnode : body.code.nodes[p]? = some (.label l)) (hmerged : m.graph.frameAt? l = some merged) :
    Covered body m.graph m.maxima none (p + 1) merged :=
  h.covered _ (Body.starts_of_frameAt? (h.built.grows h.grows) hnode hmerged)

/-- A frame that has been seen at a label is covered where the label is placed. -/
theorem covered_arrival (h : m.Settles body graph) (hnode : body.code.nodes[p]? = some (.label l))
    (hlocals : k.locals.words ≤ m.maxima.locals) (hseen : m.graph.Seen l k) :
    Covered body m.graph m.maxima none p k := by
  obtain ⟨merged, hmerged, hbelow⟩ := h.lands l k hseen
  have hfits := (h.covered_merged hnode hmerged).fits
  obtain ⟨j, hj, _⟩ := hseen
  refine .arrive p k l hnode (JoinGraph.isJoin_of_join? hj) ⟨j, hj, ‹_›⟩ ⟨hlocals, ?_⟩
  rw [hbelow.stackWords_eq]
  exact hfits.2

end Machine.Settles

namespace Body.Path

variable {body : Body} {graph : JoinGraph} {m : Machine} {p : Nat} {f : Frame}

/-- Wherever a path gets to, the analysis has been, with a frame that stands for the path's own. -/
theorem exists_covered (hlaw : Oracle.Lawful body.oracle) (hm : m.Settles body graph)
    (hpath : body.Path graph p f) : ∃ k, Covered body m.graph m.maxima none p k
      ∧ f.Follows body.oracle m.maxima.locals k := by
  have hplaced := hm.built.placed
  induction hpath with
  | entry => exact ⟨_, hm.covered _ .entry, .refl _, Nat.le_max_right ..⟩
  | label p f l _ hnode ih =>
    obtain ⟨k, hk, hfk⟩ := ih
    rcases hk.at_label hnode with ⟨_, hseen⟩ | ⟨_, hrest⟩
    · -- the analysis went on from the merged frame, the path goes on with its own
      obtain ⟨merged, hmerged, hbelow⟩ := hm.lands l k hseen
      have hwords : f.locals.words ≤ max m.maxima.locals merged.locals.words := by
        have hfits := hk.fits.1
        have hfollows := hfk.words
        omega
      exact ⟨merged, hm.covered_merged hnode hmerged, hfk.below.trans hlaw hbelow, hwords⟩
    · exact ⟨k, hrest, hfk⟩
  | frame p f s _ hnode ih =>
    obtain ⟨k, hk, hfk⟩ := ih
    exact ⟨k, hk.at_frame hnode, hfk⟩
  | insn p f f' i _ hnode hexec ih =>
    obtain ⟨k, hk, hfk⟩ := ih
    obtain ⟨k', hexec', hrest⟩ := hk.at_insn hnode
    exact ⟨k', hrest, hfk.execute hlaw hexec hexec'⟩
  | fall p f f' b _ hnode hfall hexec ih =>
    obtain ⟨k, hk, hfk⟩ := ih
    obtain ⟨k', hexec', _, _, hrest⟩ := hk.at_branch hnode
    exact ⟨k', hrest hfall, hfk.executeBranch hlaw hexec hexec'⟩
  | jump p f f' b t q _ hnode ht hq hexec ih =>
    obtain ⟨k, hk, hfk⟩ := ih
    obtain ⟨k', hexec', hfits', hseen, _⟩ := hk.at_branch hnode
    exact ⟨k', hm.covered_arrival ((hplaced t q).mp hq) hfits'.1 (hseen t ht),
      hfk.executeBranch hlaw hexec hexec'⟩
  | throw p f node l t q _ hnode hinsn hl ht hq ih =>
    obtain ⟨k, hk, hfk⟩ := ih
    have hcatch : m.graph.Catches m.graph.Seen p k := hk.admits.catches hnode hinsn
    rw [← hm.grows.protectors_eq] at hl
    -- a handler has one catch type, for the path as for the analysis
    obtain ⟨t', ht', hseen⟩ := hcatch l hl
    rw [hm.grows.catchType?_eq, ht] at ht'
    cases ht'
    exact ⟨k.caught t, hm.covered_arrival ((hplaced l q).mp hq) hk.fits.1 hseen,
      hfk.below.caught t, hfk.words⟩

/-- A path can go on from wherever it is, and lands where the analysis has been. -/
theorem admits (hlaw : Oracle.Lawful body.oracle) (hm : m.Settles body graph)
    (hpath : body.Path graph p f) :
    body.Admits graph (Lands body.oracle m.graph.frameAt?) p f := by
  obtain ⟨k, hk, hfk⟩ := hpath.exists_covered hlaw hm
  -- a frame below one that has been seen lands below the merged one
  have hlands : ∀ {l : Label} {f k : Frame}, f.Assignable body.oracle k → m.graph.Seen l k →
      Lands body.oracle m.graph.frameAt? l f :=
    fun hfk hseen => .of_assignable hlaw hfk (hm.lands _ _ hseen)
  have hcatches : m.graph.Catches m.graph.Seen p k →
      graph.Catches (Lands body.oracle m.graph.frameAt?) p f := by
    intro hcatch l hl
    rw [← hm.grows.protectors_eq] at hl
    obtain ⟨t, ht, hseen⟩ := hcatch l hl
    exact ⟨t, (hm.grows.catchType?_eq l).symm.trans ht, hlands (hfk.below.caught t) hseen⟩
  have hadmits := hk.admits
  obtain ⟨node, hnode⟩ := hadmits.exists_node
  unfold Body.Admits
  rw [hnode]
  cases node with
  | label l =>
    intro hjoin
    rw [← hm.grows.isJoin] at hjoin
    exact hlands hfk.below (hadmits.arrives_label hnode hjoin)
  | frame s => trivial
  | insn i =>
    obtain ⟨k', hexec⟩ := hadmits.executes hnode
    obtain ⟨f', hf', _⟩ := Frame.execute_mono hlaw hfk hexec
    exact ⟨hcatches (hadmits.catches hnode rfl), f', hf'⟩
  | branch b =>
    obtain ⟨k', hexec, hseen⟩ := hadmits.executes_branch hnode
    obtain ⟨f', hf', hfollows⟩ := Frame.executeBranch_mono hlaw hfk hexec
    exact ⟨hcatches (hadmits.catches hnode rfl), f', hf',
      fun t ht => hlands hfollows.below (hseen t ht)⟩

/-- The frames of a path are within the maxima. -/
theorem fits (hlaw : Oracle.Lawful body.oracle) (hm : m.Settles body graph)
    (hpath : body.Path graph p f) : m.maxima.Covers f := by
  obtain ⟨k, hk, hfk⟩ := hpath.exists_covered hlaw hm
  have hfits := hk.fits
  have hwords := hfk.words
  rw [Nat.max_eq_left hfits.1] at hwords
  refine ⟨hwords, ?_⟩
  rw [hfk.below.stackWords_eq]
  exact hfits.2

end Body.Path

namespace Analysis

variable {fuel : Nat} {h : Hierarchy} {settings : Settings} {method : Method} {code : Code}
variable {ranges : List ProtectedRange} {report : Report} {analysis : Analysis}

/-- All of this is known of the run of a successful analysis, if the body allocates nothing. -/
theorem settles_of_run {graph : JoinGraph} {m : Machine} (hwf : h.WellFormed)
    (hrec : settings.recovery = none) (hnew : ∀ c, Node.insn (.new c) ∉ code.nodes)
    (hbuild : JoinGraph.build h.common (prepare settings code) ranges = .ok graph)
    (hrun : Machine.run (bodyOf h.common settings method code) fuel
      (.start (bodyOf h.common settings method code) graph) = some (m, none)) :
    m.Settles (bodyOf h.common settings method code) graph := by
  obtain ⟨hbuilt, hfresh⟩ := JoinGraph.built_of_build hbuild
  have hrec' : (bodyOf h.common settings method code).recovery = none := hrec
  obtain ⟨hgrow, hcovered⟩ := covered_of_run hrec' hbuild hrun
  refine ⟨hbuilt, hgrow, fun s hs => hcovered s s hs .refl, fun l f hseen => ?_⟩
  exact Body.lands_of_seen hwf.lawful (fun c hc => hnew c (mem_of_mem_prepare hc rfl)) hrec hbuilt
    hfresh hrun hseen

/-- After a successful analysis of a body that allocates nothing, no path through the body can get
stuck. Every frame of a path is within the reported maxima, and may be assigned to the merged frame
of each join point that the path gets to, which is there. -/
theorem paths_stay_below_merged_frames (hwf : h.WellFormed) (hrec : settings.recovery = none)
    (hnew : ∀ c, Node.insn (.new c) ∉ code.nodes)
    (hanalyze : analyze fuel h.common settings method code ranges = some report)
    (hok : report.result = .ok analysis) :
    ∃ graph m, JoinGraph.build h.common (prepare settings code) ranges = .ok graph
      ∧ Machine.run (bodyOf h.common settings method code) fuel
          (.start (bodyOf h.common settings method code) graph) = some (m, none)
      ∧ ∀ p f, (bodyOf h.common settings method code).Path graph p f →
          (bodyOf h.common settings method code).Admits graph (Lands h.common m.graph.frameAt?) p f
            ∧ f.stackWords ≤ analysis.maxStack.toNat
            ∧ f.locals.words ≤ analysis.maxLocals.toNat := by
  obtain ⟨graph, m, hbuild, hrun, hstack, hlocals⟩ := run_of_ok hanalyze hok
  have hm := settles_of_run hwf hrec hnew hbuild hrun
  refine ⟨graph, m, hbuild, hrun, fun p f hpath => ⟨hpath.admits hwf.lawful hm, ?_⟩⟩
  -- the reported maxima are those of the machine, which cover all frames of the path
  rw [hstack, hlocals]
  exact (hpath.fits hwf.lawful hm).symm

/-- No path through the countdown can get stuck. -/
theorem paths_stay_below_merged_frames_countdown :
    Hierarchy.javaLang.WellFormed ∧ (∀ c, Node.insn (.new c) ∉ Countdown.code.nodes)
      ∧ ∃ report analysis, analyze 80 Hierarchy.javaLang.common .plain Countdown.method
          Countdown.code Countdown.ranges = some report
        ∧ report.result = .ok analysis
        ∧ ∃ graph m, JoinGraph.build Hierarchy.javaLang.common (prepare .plain Countdown.code)
            Countdown.ranges = .ok graph
          ∧ Machine.run (bodyOf Hierarchy.javaLang.common .plain Countdown.method Countdown.code) 80
              (.start (bodyOf Hierarchy.javaLang.common .plain Countdown.method Countdown.code) graph)
              = some (m, none)
          ∧ ∀ p f, (bodyOf Hierarchy.javaLang.common .plain Countdown.method Countdown.code).Path
                graph p f →
              (bodyOf Hierarchy.javaLang.common .plain Countdown.method Countdown.code).Admits graph
                  (Lands Hierarchy.javaLang.common m.graph.frameAt?) p f
                ∧ f.stackWords ≤ analysis.maxStack.toNat
                ∧ f.locals.words ≤ analysis.maxLocals.toNat := by
  have hnew : ∀ c, Node.insn (.new c) ∉ Countdown.code.nodes := by
    intro c
    simp [Countdown.code]
  obtain ⟨report, analysis, hanalyze, hok⟩ := Countdown.analyze_ok
  exact ⟨Hierarchy.wellFormed_javaLang, hnew, report, analysis, hanalyze, hok,
    paths_stay_below_merged_frames Hierarchy.wellFormed_javaLang rfl hnew hanalyze hok⟩

end Analysis

end JvmFrames
