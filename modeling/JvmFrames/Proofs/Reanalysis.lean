import JvmFrames.Proofs.Anchors
import JvmFrames.Proofs.Labelling
import JvmFrames.Proofs.Provenance

/-!
# Analyzing again

The body that analysis leaves behind is prepared to the same body as the one it was given: a label
stands before every `new` already, and the frames that were put in are taken out again. Analysis
reads nothing but the prepared body, so it comes to the same report, whether it succeeds or fails.
-/

namespace JvmFrames

/-- A body is its nodes and the next label to hand out. -/
theorem Code.ext_nodes {code code' : Code} (hnodes : code.nodes = code'.nodes)
    (hnext : code.nextLabel = code'.nextLabel) : code = code' := by
  cases code
  cases code'
  cases hnodes
  cases hnext
  rfl

/-! ## Taking frames out and putting them in

Frames are put in at positions that were collected in order. So they come out in order, and each is
right before the instruction it was meant for. -/

/-- The frame a node is. -/
def Node.frame? : Node → Option (StackMapFrame VType)
  | frame f => some f
  | _ => none

namespace Framed

variable {asked : Bool} {nodes nodes' : List Node}

theorem eq_of_not_asked (h : Framed false nodes nodes') : nodes' = nodes := by
  induction h with
  | nil => rfl
  | keep node _ ih => rw [ih]
  | put hasked => cases hasked

/-- Taking all frames out forgets which ones were put in. -/
theorem filter_isFrame (h : Framed asked nodes nodes') :
    nodes'.filter (fun node => !node.isFrame) = nodes.filter fun node => !node.isFrame := by
  induction h with
  | nil => rfl
  | keep node _ ih => rw [List.filter_cons, List.filter_cons, ih]
  | put _ f node _ ih =>
    rw [List.filter_cons_of_neg (by simp [Node.isFrame]), List.filter_cons, List.filter_cons, ih]

end Framed

namespace Spots

variable {position : Nat} {nodes : List Node} {spots : List Nat}
variable {frames : List (StackMapFrame VType)}

/-- Frames for later positions leave the node in front as it is. -/
theorem weaveFrames_later (h : Spots (position + 1) nodes spots) (node : Node) :
    weaveFrames position (node :: nodes) (spots.zip frames)
      = node :: weaveFrames (position + 1) nodes (spots.zip frames) := by
  cases spots with
  | nil => simp [weaveFrames]
  | cons p spots =>
    cases frames with
    | nil => simp [weaveFrames]
    | cons f frames =>
      have hp := h.le p (List.mem_cons_self ..)
      rw [List.zip_cons_cons, weaveFrames, if_neg (by omega)]

/-- The frames of a body that had none are those that were put in, in the same order. -/
theorem filterMap_frame? (h : Spots position nodes spots) (hlength : frames.length = spots.length)
    (hnone : ∀ node ∈ nodes, node.frame? = none) :
    (weaveFrames position nodes (spots.zip frames)).filterMap Node.frame? = frames := by
  -- the frames are used up in step with the positions, one at each
  induction h generalizing frames with
  | empty position nodes =>
    rw [List.eq_nil_of_length_eq_zero hlength, List.zip_nil_right]
    simpa [weaveFrames] using hnone
  | later node h ih =>
    rw [h.weaveFrames_later, List.filterMap_cons_none (hnone node (List.mem_cons_self ..))]
    exact ih hlength fun node' hnode' => hnone node' (List.mem_cons_of_mem _ hnode')
  | here hnode h ih =>
    cases frames with
    | nil => cases hlength
    | cons f frames =>
      rw [List.zip_cons_cons, weaveFrames, if_pos rfl,
        List.filterMap_cons_some (show (Node.frame f).frame? = some f from rfl),
        List.filterMap_cons_none (hnone _ (List.mem_cons_self ..)),
        ih (Nat.succ.inj hlength) fun node' hnode' => hnone node' (List.mem_cons_of_mem _ hnode')]

/-- What comes right behind a frame that was put in is an instruction. -/
theorem isInstruction_behind (h : Spots position nodes spots)
    (hnone : ∀ node ∈ nodes, node.frame? = none) {i : Nat} {f : StackMapFrame VType}
    (hf : (weaveFrames position nodes (spots.zip frames))[i]? = some (.frame f)) :
    ∃ node, (weaveFrames position nodes (spots.zip frames))[i + 1]? = some node
      ∧ node.isInstruction = true := by
  -- no node that was there before is a frame
  have hold : ∀ {node : Node} {rest : List Node}, (∀ n ∈ node :: rest, n.frame? = none) →
      node = .frame f → False := by
    intro node rest hnone hnode
    have hhead := hnone node (List.mem_cons_self ..)
    rw [hnode] at hhead
    cases hhead
  induction h generalizing frames i with
  | empty position nodes =>
    have hmem : .frame f ∈ nodes := by
      simp only [List.zip_nil_left, weaveFrames] at hf
      exact List.mem_of_getElem? hf
    cases hnone _ hmem
  | later node h ih =>
    rw [h.weaveFrames_later] at hf ⊢
    cases i with
    | zero => exact (hold hnone (Option.some.inj hf)).elim
    | succ i => exact ih (fun node' hnode' => hnone node' (List.mem_cons_of_mem _ hnode')) hf
  | @here position node hnode rest spots h ih =>
    cases frames with
    | nil =>
      rw [List.zip_nil_right] at hf
      have hmem : .frame f ∈ node :: rest := by
        simp only [weaveFrames] at hf
        exact List.mem_of_getElem? hf
      cases hnone _ hmem
    | cons f' frames =>
      rw [List.zip_cons_cons, weaveFrames, if_pos rfl] at hf ⊢
      cases i with
      | zero => exact ⟨node, rfl, hnode⟩
      | succ i =>
        cases i with
        | zero => exact (hold hnone (Option.some.inj hf)).elim
        | succ i => exact ih (fun node' hnode' => hnone node' (List.mem_cons_of_mem _ hnode')) hf

end Spots

/-- There is one directive for each snapshot. -/
theorem length_directivesFrom (previous : Snapshot VType)
    (pairs : List (Label × Snapshot VType)) :
    (directivesFrom previous pairs).length = pairs.length := by
  induction pairs generalizing previous with
  | nil => rfl
  | cons pair rest ih => exact congrArg Nat.succ (ih pair.2)

namespace Analysis

variable {fuel : Nat} {oracle : Oracle} {settings : Settings} {method : Method} {code : Code}
variable {ranges : List ProtectedRange} {report : Report} {analysis : Analysis}

/-! ## The body that is left behind

Whether analysis succeeds or fails, what it reports is the prepared body, with or without frames.
Preparing it again changes nothing. -/

/-- A body without frames has none when its allocations are labelled. -/
theorem frame?_of_mem_prepare (hinsert : settings.insertFrames = true) {node : Node}
    (h : node ∈ (prepare settings code).nodes.toList) : node.frame? = none := by
  cases node with
  | label l => rfl
  | insn i => rfl
  | branch b => rfl
  | frame f =>
    unfold prepare at h
    rw [if_pos hinsert] at h
    have hmem : .frame f ∈ code.removeFrames.nodes.toList := mem_of_mem_labelAllocations h rfl
    have hfilter := (Array.mem_filter.mp (Array.mem_toList_iff.mp hmem)).2
    cases hfilter

/-- The body that is reported is the one that was analyzed, with frames put in if they were asked
for and analysis succeeds. -/
theorem framed_of_analyze (h : analyze fuel oracle settings method code ranges = some report) :
    Framed settings.insertFrames (prepare settings code).nodes.toList report.code.nodes.toList
      ∧ report.code.nextLabel = (prepare settings code).nextLabel := by
  cases hbuild : JoinGraph.build oracle (prepare settings code) ranges with
  | error e =>
    rw [analyze_of_build_error hbuild] at h
    cases h
    exact ⟨.refl _ _, rfl⟩
  | ok graph =>
    rw [analyze_of_build_ok hbuild] at h
    obtain ⟨⟨m, error⟩, _, rfl⟩ := Option.map_eq_some_iff.mp h
    unfold Analysis.report
    cases error with
    | some e => exact ⟨.refl _ _, rfl⟩
    | none =>
      -- frames are put in only if the run has finished and its maxima are small enough
      cases hconclude : conclude method (prepare settings code) m with
      | error e =>
        simp only [bodyOf, hconclude]
        exact ⟨.refl _ _, trivial⟩
      | ok result =>
        obtain ⟨analysis, woven⟩ := result
        simp only [bodyOf, hconclude]
        obtain ⟨_, _, _, rfl⟩ := conclude_eq_ok hconclude
        cases settings.insertFrames with
        | true => exact ⟨Framed.weaveFrames 0 _ _, rfl⟩
        | false => exact ⟨.refl false _, rfl⟩

/-- With its frames taken out, a body that frames were put into is the one that was analyzed. -/
theorem removeFrames_of_framed (hinsert : settings.insertFrames = true) {code' : Code}
    (hframed : Framed true (prepare settings code).nodes.toList code'.nodes.toList)
    (hnext : code'.nextLabel = (prepare settings code).nextLabel) :
    code'.removeFrames = prepare settings code := by
  have hnodes : code'.nodes.filter (fun node => !node.isFrame) = (prepare settings code).nodes := by
    apply Array.toList_inj.mp
    rw [Array.toList_filter, hframed.filter_isFrame, List.filter_eq_self]
    intro node hnode
    have hnone := frame?_of_mem_prepare hinsert hnode
    cases node with
    | frame f => cases hnone
    | _ => rfl
  exact Code.ext_nodes hnodes hnext

/-- The body that analysis leaves behind is prepared to the body that was analyzed. -/
theorem prepare_of_analyze (h : analyze fuel oracle settings method code ranges = some report) :
    prepare settings report.code = prepare settings code := by
  obtain ⟨hframed, hnext⟩ := framed_of_analyze h
  -- a prepared body is labelled already
  have hagain : (prepare settings code).labelAllocations = prepare settings code :=
    Code.labelAllocations_labelAllocations _
  cases hinsert : settings.insertFrames with
  | true =>
    rw [hinsert] at hframed
    rw [prepare, if_pos hinsert, removeFrames_of_framed hinsert hframed hnext, hagain]
  | false =>
    rw [hinsert] at hframed
    have hnodes := Array.toList_inj.mp hframed.eq_of_not_asked
    rw [Code.ext_nodes hnodes hnext, prepare, if_neg (by rw [hinsert]; decide)]
    exact hagain

/-- The frames that analysis puts into a body are the compressed frames of its directives, in the
same order, and each of them stands right before an instruction. -/
theorem frames_put_in (h : analyze fuel oracle settings method code ranges = some report)
    (hok : report.result = .ok analysis) (hinsert : settings.insertFrames = true) :
    report.code.nodes.toList.filterMap Node.frame? = analysis.frames.map (·.frame)
      ∧ ∀ p f, report.code.nodes[p]? = some (.frame f) → report.code.Executes (p + 1) := by
  obtain ⟨graph, m, woven, _, _, hconclude, hcode⟩ := concluded_of_ok h hok
  obtain ⟨_, _, hanalysis, hwoven⟩ := conclude_eq_ok hconclude
  rw [if_pos hinsert, hwoven] at hcode
  have hspots := spots_reachedAnchors m.graph (prepare settings code)
  have hnone : ∀ node ∈ (prepare settings code).nodes.toList, node.frame? = none :=
    fun node hnode => frame?_of_mem_prepare hinsert hnode
  -- one frame for each spot, so none is left over
  have hlength : (analysis.frames.map (·.frame)).length
      = ((reachedAnchors m.graph (prepare settings code)).map (·.1)).length := by
    rw [hanalysis, List.length_map, length_directivesFrom, List.length_map, List.length_map]
  rw [hcode]
  refine ⟨hspots.filterMap_frame? hlength hnone, fun p f hf => ?_⟩
  rw [← Array.getElem?_toList] at hf
  obtain ⟨node, hnode, hinsn⟩ := hspots.isInstruction_behind hnone hf
  exact ⟨node, by rw [← Array.getElem?_toList]; exact hnode, hinsn⟩

/-! ## The same report

Analysis begins by preparing the body, and uses nothing else of it. -/

/-- Analyzing the body that an analysis has left behind comes to the same report: the same analysis
or the same error, and the same body. If frames were asked for and analysis succeeds, the body left
behind is the given one without its frames and with its allocations labelled, apart from frames.
These are the compressed frames of the analysis, in the same order, each right before an
instruction. -/
theorem reanalysis_gives_same_report
    (h : analyze fuel oracle settings method code ranges = some report) :
    analyze fuel oracle settings method report.code ranges = some report
      ∧ (settings.insertFrames = true → ∀ analysis, report.result = .ok analysis →
          report.code.removeFrames = code.removeFrames.labelAllocations
          ∧ report.code.nodes.toList.filterMap Node.frame? = analysis.frames.map (·.frame)
          ∧ ∀ p f, report.code.nodes[p]? = some (.frame f) → report.code.Executes (p + 1)) := by
  refine ⟨?_, fun hinsert analysis hok => ⟨?_, frames_put_in h hok hinsert⟩⟩
  · -- analysis looks at the prepared body only
    rw [← h]
    unfold analyze
    rw [prepare_of_analyze h]
  · obtain ⟨hframed, hnext⟩ := framed_of_analyze h
    rw [hinsert] at hframed
    rw [removeFrames_of_framed hinsert hframed hnext, prepare, if_pos hinsert]

end Analysis

/-! ## A body with an old frame

Frames that are in the body already are taken out, wherever they stand. -/

namespace Stale

/-- A frame has been left between a label and the `new` behind it. -/
def code : Code where
  nodes := #[
    .branch (.goto ⟨0⟩),
    .label ⟨0⟩,
    .frame (.chop 1),
    .insn (.new .string),
    .insn (.shuffle .pop),
    .insn (.new .string),
    .insn (.shuffle .pop),
    .branch .returnVoid]
  nextLabel := 1

/-- The analysis makes one frame for the label, whatever stood there before. -/
theorem analyze_ok : ∃ report analysis,
    analyze 40 Hierarchy.javaLang.common Detour.settings Detour.method code [] = some report
      ∧ report.result = .ok analysis ∧ analysis.frames.map (·.frame) = [.same] :=
  ⟨_, _, rfl, rfl, rfl⟩

end Stale

namespace Analysis

/-- The old frame gives way to a new one, and a second analysis finds the same. -/
theorem reanalysis_gives_same_report_stale :
    ∃ report analysis,
      analyze 40 Hierarchy.javaLang.common Detour.settings Detour.method Stale.code [] = some report
      ∧ report.result = .ok analysis
      ∧ analyze 40 Hierarchy.javaLang.common Detour.settings Detour.method report.code [] = some report
      ∧ report.code.removeFrames = Stale.code.removeFrames.labelAllocations
      ∧ report.code.nodes.toList.filterMap Node.frame? = [.same]
      ∧ ∀ p f, report.code.nodes[p]? = some (.frame f) → report.code.Executes (p + 1) := by
  obtain ⟨report, analysis, h, hok, hframes⟩ := Stale.analyze_ok
  obtain ⟨hagain, hinserted⟩ := reanalysis_gives_same_report h
  obtain ⟨hcode, hput, hbefore⟩ := hinserted rfl analysis hok
  exact ⟨report, analysis, h, hok, hagain, hcode, hput.trans hframes, hbefore⟩

end Analysis

end JvmFrames
