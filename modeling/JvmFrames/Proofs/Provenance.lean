import JvmFrames.Proofs.Closure
import JvmFrames.Proofs.Edits
import JvmFrames.Proofs.Values

/-!
# Where values under construction come from

A value that no constructor has completed names the label of the `new` that made it, and the
receiver is such a value only in a constructor. Both hold of every value of every frame of a run
(`VType.Traced`), so they hold of the frames that are emitted, and the label still names the same
`new` in the body that analysis leaves behind.
-/

namespace JvmFrames

/-- An allocation was made by a `new` of its class that its site is right before, and the receiver
is not initialized in constructors only, other than that of the root class. -/
def VType.Traced (code : Code) (method : Method) : VType → Prop
  | .uninitialized u => ∃ p, code.nodes[p]? = some (.insn (.new u.className))
      ∧ code.siteBefore? p = some u.site
  | .uninitializedThis => method.isStatic = false ∧ method.isConstructor = true
      ∧ method.className ≠ .object
  | _ => True

namespace VType

variable {code : Code} {method : Method} {v w : VType}

/-- Elements of arrays are not under construction. -/
theorem traced_elementOf (code : Code) (method : Method) (v : VType) :
    v.elementOf.Traced code method := by
  unfold elementOf
  split
  · split
    · trivial
    · trivial
  · trivial

/-- A traced value is traced after its constructor has run. -/
theorem Traced.constructed (hv : v.Traced code method) (this : ClassName) :
    (v.constructed this).Traced code method := by
  cases v with
  | uninitializedThis => trivial
  | uninitialized u => trivial
  | _ => exact hv

/-- Plain values, elements and completed values need no trace. -/
theorem closed_traced (code : Code) (method : Method) (this : ClassName) :
    VType.Closed (Traced code method) this where
  top := trivial
  integer := trivial
  float := trivial
  long := trivial
  double := trivial
  null := trivial
  element := fun v _ => traced_elementOf code method v
  constructed := fun _ hv => hv.constructed this

/-- A merge of two values is one of them, or an object, or unusable. -/
theorem Traced.merge (oracle : Oracle) (hv : v.Traced code method) (hw : w.Traced code method) :
    (v.merge oracle w).Traced code method := by
  -- where an allocation comes out it was on one of the two sides
  unfold VType.merge meet
  split
  · trivial
  · trivial
  · split
    · exact hv
    · split
      · exact hw
      · exact hv
      · split
        · exact hv
        · trivial
      · split
        · exact hw
        · trivial
      · trivial
      · trivial

/-- The receiver on entry is under construction only in constructors. -/
theorem traced_receiver (hstatic : method.isStatic = false) :
    (VType.receiver method.className
      (method.isConstructor && method.className != .object)).Traced code method := by
  unfold receiver
  split
  case isTrue h =>
    rw [Bool.and_eq_true, bne_iff_ne] at h
    exact ⟨hstatic, h.1, h.2⟩
  case isFalse => trivial

end VType

/-- Every value of every frame of a run is traced, since only a `new` makes allocations. -/
theorem Body.flow_traced {body : Body} {graph : JoinGraph} (hbuilt : graph.Built body.code)
    (hfresh : graph.Fresh) :
    body.Flow graph (fun _ => Frame.Holds (VType.Traced body.code body.method))
      (fun _ => Frame.Holds (VType.Traced body.code body.method))
      (fun _ j => (∀ f, j.merged = some f → f.Holds (VType.Traced body.code body.method)) ∧ True) := by
  have hclosed := VType.closed_traced body.code body.method body.method.className
  refine flow_of_uniform hbuilt hfresh ?entry ?insn ?branch ?caught ?merge (fun _ _ _ => trivial)
    (fun _ _ _ _ _ _ _ => trivial) (fun _ _ _ => trivial)
  case entry => exact Frame.holds_entry hclosed VType.traced_receiver fun _ _ => trivial
  case insn =>
    intro p i f f' hnode hf hexec
    refine hf.perform hclosed.top (hclosed.instruction (fun _ _ => trivial) ?_) hexec
    -- an allocation is traced to the very `new` that makes it
    rintro c l rfl hl
    exact ⟨p, hnode, hl⟩
  case branch =>
    intro p b f f' hnode hf hexec
    exact hf.perform hclosed.top (b.supplies _ _) hexec
  case caught =>
    intro l t f _ hf
    refine ⟨hf.1, fun v hv => ?_⟩
    rw [List.mem_singleton.mp hv]
    trivial
  case merge =>
    intro f g m hf hg hmerge
    exact hf.merge hclosed.top (fun v w hv hw => hv.merge body.oracle hw) hg hmerge

/-! ## Emitted frames

The directives hold snapshots of merged frames, so their values are traced. It remains to see that
the labels name the same allocations in the body that is reported. -/

/-- A snapshot has no values other than those of its frame. -/
theorem Frame.Holds.snapshot {P : VType → Prop} {f : Frame} (h : f.Holds P) :
    ∀ v ∈ f.snapshot.locals ++ f.snapshot.stack, P v := by
  intro v hv
  rcases List.mem_append.mp hv with hv | hv
  · obtain ⟨n, hn⟩ := exists_eq_trim_append f.locals.toList
    refine h.1 v ?_
    rw [hn]
    exact List.mem_append_left _ hv
  · exact h.2 v (List.mem_reverse.mp hv)

/-- Every directive is for one of the given labels, with the given snapshot. -/
theorem mem_of_mem_directivesFrom {previous : Snapshot VType} {pairs : List (Label × Snapshot VType)}
    {d : Directive} (h : d ∈ directivesFrom previous pairs) : (d.label, d.snapshot) ∈ pairs := by
  induction pairs generalizing previous with
  | nil => cases h
  | cons pair rest ih =>
    rcases List.mem_cons.mp h with rfl | h
    · exact List.mem_cons_self ..
    · exact List.mem_cons_of_mem _ (ih h)

namespace Analysis

variable {fuel : Nat} {oracle : Oracle} {settings : Settings} {method : Method} {code : Code}
variable {ranges : List ProtectedRange} {report : Report} {analysis : Analysis}

/-- A directive has the snapshot of the merged frame at its label. -/
theorem frameAt?_of_conclude {m : Machine} {woven : Code}
    (h : conclude method code m = .ok (analysis, woven)) {d : Directive} (hd : d ∈ analysis.frames) :
    ∃ f, m.graph.frameAt? d.label = some f ∧ d.snapshot = f.snapshot := by
  obtain ⟨_, _, rfl, _⟩ := conclude_eq_ok h
  obtain ⟨⟨position, pair⟩, hmem, hpair⟩ := List.mem_map.mp (mem_of_mem_directivesFrom hd)
  obtain ⟨⟨position', l⟩, _, hreached⟩ := List.mem_filterMap.mp hmem
  obtain ⟨f, hf, heq⟩ := Option.map_eq_some_iff.mp hreached
  cases heq
  obtain ⟨hlabel, hsnapshot⟩ := Prod.mk.inj hpair
  exact ⟨f, hlabel ▸ hf, hsnapshot.symm⟩

/-- Every value of an emitted frame is traced in the body as it was analyzed. -/
theorem traced_of_directive {graph : JoinGraph} {m : Machine} {woven : Code}
    (hrec : settings.recovery = none)
    (hbuild : JoinGraph.build oracle (prepare settings code) ranges = .ok graph)
    (hrun : Machine.run (bodyOf oracle settings method code) fuel
      (.start (bodyOf oracle settings method code) graph) = some (m, none))
    (hconclude : conclude method (prepare settings code) m = .ok (analysis, woven))
    {d : Directive} (hd : d ∈ analysis.frames) :
    ∀ v ∈ d.snapshot.locals ++ d.snapshot.stack, v.Traced (prepare settings code) method := by
  obtain ⟨hbuilt, hfresh⟩ := JoinGraph.built_of_build hbuild
  have hbuilt' : graph.Built (bodyOf oracle settings method code).code := hbuilt
  have flow := Body.flow_traced hbuilt' hfresh
  obtain ⟨hm, _⟩ := Machine.finished_invariant hrec (fun _ _ => flow.moves) hrun flow.start
  -- a directive has the snapshot of a merged frame, and merged frames are traced in every run
  obtain ⟨f, hf, hsnapshot⟩ := frameAt?_of_conclude hconclude hd
  obtain ⟨j, hj, hmerged⟩ := Option.bind_eq_some_iff.mp hf
  rw [hsnapshot]
  exact ((hm.joins d.label j hj).1 f hmerged).snapshot

/-- The body that is reported is the one that was analyzed, with frames put in if they were asked
for. -/
theorem framed_of_conclude {m : Machine} {woven : Code}
    (hconclude : conclude method (prepare settings code) m = .ok (analysis, woven))
    (hcode : report.code = if settings.insertFrames then woven else prepare settings code) :
    Framed settings.insertFrames (prepare settings code).nodes.toList report.code.nodes.toList := by
  rw [hcode]
  cases hinsert : settings.insertFrames with
  | true =>
    obtain ⟨_, _, _, rfl⟩ := conclude_eq_ok hconclude
    exact Framed.weaveFrames 0 _ _
  | false => exact .refl false _

end Analysis

/-- A label is placed once, and names a `new` of a class. -/
def Code.Allocates (code : Code) (framed : Bool) (c : ClassName) (s : Label) : Prop :=
  (∃! q : Nat, code.nodes[q]? = some (.label s))
    ∧ ∃ p, code.nodes[p]? = some (.insn (.new c)) ∧ code.Names framed s p

namespace Framed

variable {asked : Bool} {code code' : Code} {s : Label}

theorem nodup_labels (h : Framed asked code.nodes.toList code'.nodes.toList)
    (hnodup : code.labels.Nodup) : code'.labels.Nodup := by
  rw [Code.labels, h.filterMap_label?]
  exact hnodup

/-- An allocation is named in the new body as in the old one. -/
theorem allocates (h : Framed asked code.nodes.toList code'.nodes.toList)
    (hnodup : code.labels.Nodup) {r : Nat} {c : ClassName}
    (hnew : code.nodes[r]? = some (.insn (.new c))) (hsite : code.siteBefore? r = some s) :
    code'.Allocates asked c s := by
  rw [← Array.getElem?_toList] at hnew
  obtain ⟨p, hp⟩ := h.exists_later (.insn .nop) hnew
  have hnames := hp.names hsite
  obtain ⟨q, hq⟩ := hnames.exists_label
  refine ⟨⟨q, hq, fun q' hq' => Code.eq_of_label (h.nodup_labels hnodup) hq' hq⟩, p, ?_, hnames⟩
  rw [← Array.getElem?_toList, hp.1, hnew]

end Framed

namespace Analysis

variable {fuel : Nat} {oracle : Oracle} {settings : Settings} {method : Method} {code : Code}
variable {ranges : List ProtectedRange} {report : Report} {analysis : Analysis}

/-- In the frames of a successful analysis, an allocation has as its site a label that is placed
once and is right before a `new` of its class. That is so in the body as it was analyzed, and also
in the body that is reported, where the frame of the `new` may stand between the two. The receiver
is not initialized in constructors only. Every `new` has a site, and no two of them have the same
one. -/
theorem emitted_allocations_are_named (hrec : settings.recovery = none)
    (h : analyze fuel oracle settings method code ranges = some report)
    (hok : report.result = .ok analysis) :
    (∀ d ∈ analysis.frames, ∀ v ∈ d.snapshot.locals ++ d.snapshot.stack,
        (∀ c s, v = .uninitialized ⟨c, s⟩ → (prepare settings code).Allocates false c s
          ∧ report.code.Allocates settings.insertFrames c s)
        ∧ (v = .uninitializedThis → method.isStatic = false ∧ method.isConstructor = true
          ∧ method.className ≠ .object))
      ∧ (∀ p c, report.code.nodes[p]? = some (.insn (.new c)) →
          ∃ s, report.code.Names settings.insertFrames s p)
      ∧ ∀ p p' c c' s, report.code.nodes[p]? = some (.insn (.new c)) →
          report.code.nodes[p']? = some (.insn (.new c')) →
          report.code.Names settings.insertFrames s p →
          report.code.Names settings.insertFrames s p' → p' = p := by
  obtain ⟨graph, m, woven, hbuild, hrun, hconclude, hcode⟩ := concluded_of_ok h hok
  have hframed := framed_of_conclude hconclude hcode
  have hnodup := JoinGraph.nodup_labels_of_build hbuild
  refine ⟨fun d hd v hv => ?_, fun p c hp => ?_, fun p p' c c' s hp hp' hs hs' => ?_⟩
  · have htraced := traced_of_directive hrec hbuild hrun hconclude hd v hv
    refine ⟨fun c s heq => ?_, fun heq => ?_⟩
    · rw [heq] at htraced
      -- the site names the same `new` before and after frames are put in
      obtain ⟨r, hr, hsite⟩ := htraced
      exact ⟨(Framed.refl false _).allocates hnodup hr hsite, hframed.allocates hnodup hr hsite⟩
    · rw [heq] at htraced
      exact htraced
  · rw [← Array.getElem?_toList] at hp
    -- a `new` of the reported body is one of the prepared body, where it has a label
    obtain ⟨r, hr⟩ := hframed.exists_earlier (.insn .nop) hp rfl
    have hnew : (prepare settings code).nodes[r]? = some (.insn (.new c)) := by
      rw [← Array.getElem?_toList, ← hr.1, hp]
    obtain ⟨s, hs⟩ := exists_siteBefore?_prepare hnew
    exact ⟨s, hr.names hs⟩
  · exact hs.unique (hframed.nodup_labels hnodup) hs' hp hp'

end Analysis

/-! ## A frame between a label and its allocation

The label of an allocation may be jumped to as well, and then a frame is put right behind it. -/

namespace Detour

/-- A static method without parameters. -/
def method : Method := ⟨.object, .init, ⟨[], none⟩, .of [.STATIC]⟩

/-- The label of the allocation is also jumped to. -/
def code : Code where
  nodes := #[
    .branch (.goto ⟨0⟩),
    .label ⟨0⟩,
    .insn (.new .string),
    .insn (.store .reference 0),
    .branch (.goto ⟨1⟩),
    .label ⟨1⟩,
    .branch .returnVoid]
  nextLabel := 2

/-- Frames are to be put into the body. -/
def settings : Settings := ⟨true, none⟩

/-- One of the frames has a string under construction, and a frame comes right after the label of
its `new`. -/
theorem analyze_ok : ∃ report analysis,
    analyze 40 Hierarchy.javaLang.common settings method code [] = some report
      ∧ report.result = .ok analysis
      ∧ (∃ d ∈ analysis.frames, d.snapshot = ⟨[.uninitialized ⟨.string, ⟨0⟩⟩], []⟩)
      ∧ report.code.nodes[1]? = some (.label ⟨0⟩) ∧ report.code.nodes[2]? = some (.frame .same) :=
  ⟨_, _, rfl, rfl, ⟨_, List.mem_cons_of_mem _ (List.mem_singleton_self _), rfl⟩, rfl, rfl⟩

end Detour

namespace Analysis

/-- The string that the second frame of the detour has not initialized is named by its label. -/
theorem emitted_allocations_are_named_detour :
    ∃ report analysis,
      analyze 40 Hierarchy.javaLang.common Detour.settings Detour.method Detour.code [] = some report
      ∧ report.result = .ok analysis
      ∧ ∃ d ∈ analysis.frames, .uninitialized ⟨.string, ⟨0⟩⟩ ∈ d.snapshot.locals
        ∧ report.code.Allocates true .string ⟨0⟩ := by
  obtain ⟨report, analysis, h, hok, ⟨d, hd, hsnapshot⟩, _⟩ := Detour.analyze_ok
  have hmem : .uninitialized ⟨.string, ⟨0⟩⟩ ∈ d.snapshot.locals := by
    rw [hsnapshot]
    exact List.mem_singleton_self _
  obtain ⟨hnamed, _⟩ := (emitted_allocations_are_named rfl h hok).1 d hd _
    (List.mem_append_left _ hmem)
  exact ⟨report, analysis, h, hok, d, hd, hmem, (hnamed _ _ rfl).2⟩

/-- If frames are put into a body, what comes right after the site of an allocation may be the frame
of its `new`. -/
theorem frame_put_behind_allocation_site :
    ∃ report analysis,
      analyze 40 Hierarchy.javaLang.common Detour.settings Detour.method Detour.code [] = some report
      ∧ report.result = .ok analysis
      ∧ ∃ d ∈ analysis.frames, .uninitialized ⟨.string, ⟨0⟩⟩ ∈ d.snapshot.locals
        ∧ report.code.nodes[1]? = some (.label ⟨0⟩)
        ∧ report.code.nodes[2]? ≠ some (.insn (.new .string)) := by
  obtain ⟨report, analysis, h, hok, ⟨d, hd, hsnapshot⟩, hlabel, hframe⟩ := Detour.analyze_ok
  refine ⟨report, analysis, h, hok, d, hd, ?_, hlabel, ?_⟩
  · rw [hsnapshot]
    exact List.mem_singleton_self _
  · rw [hframe]
    nofun

end Analysis

end JvmFrames
