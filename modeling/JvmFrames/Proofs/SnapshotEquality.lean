import JvmFrames.Proofs.Likeness
import JvmFrames.Proofs.MergeOrder

/-!
# Frames with one snapshot behave alike

A snapshot leaves out the unusable locals at the end of a frame. Nothing that is done to frames can
tell the difference: whether an instruction executes, for what cause it fails, and the snapshot of
what comes out depend on the snapshot alone, and so does merging. Having one snapshot is a likeness
of frames (`Likeness.snapshot`), so execution keeps to it; what locals take part with is only the
value usable at a word (`slotAt`).

Hence a run on frames is a run on snapshots (`Frame.map_snapshot_run`): between any two moves a
frame, and each frame that it meets, may be replaced by what its snapshot keeps.
-/

namespace JvmFrames

namespace Frame

variable {f f' g g' : Frame}

/-! ## Locals

A snapshot leaves out unusable words at the end of the locals. Reading and writing locals is about
usable values (`UsableAt`), and of these there are none that it leaves out. -/

/-- Frames have one snapshot exactly if they have the same stack and the same value in each slot. -/
theorem snapshot_eq_iff_slotAt : f.snapshot = g.snapshot ↔ f.stack = g.stack
    ∧ ∀ n, slotAt f.locals.toList n = slotAt g.locals.toList n := by
  rw [snapshot_eq_iff]
  refine and_congr_right fun _ => ⟨fun h n => slotAt_eq_of_usableAt_iff (h n), fun h n v => ?_⟩
  rw [usableAt_iff_slotAt, usableAt_iff_slotAt, h]

/-- Frames with one snapshot still have one if both get the same stack. -/
theorem snapshot_withStack (h : f.snapshot = g.snapshot) (stack : List VType) :
    Frame.snapshot { f with stack } = Frame.snapshot { g with stack } :=
  snapshot_eq_iff.mpr ⟨rfl, (snapshot_eq_iff.mp h).2⟩

theorem load_congr (h : f.snapshot = g.snapshot) (slot : UInt16) : f.load slot = g.load slot :=
  load_eq_of_usableAt_iff ((snapshot_eq_iff.mp h).2 slot.toNat)

/-- Frames with one snapshot have one after a store, also where it is past the end of only one of
them. -/
theorem store_congr (h : f.snapshot = g.snapshot) (slot : UInt16) (v : VType) :
    (f.store slot v).snapshot = (g.store slot v).snapshot := by
  obtain ⟨hstack, hlocals⟩ := snapshot_eq_iff.mp h
  refine snapshot_eq_iff.mpr ⟨hstack, fun n w => ?_⟩
  rw [usableAt_store_iff, usableAt_store_iff, hlocals]

/-- Where values are replaced by others of their width, the usable ones come from usable ones. -/
theorem usableAt_map_iff {change : VType → VType} (hwidth : ∀ v, width (change v) = width v)
    (htop : change .top = .top) {values : List VType} {n : Nat} {x : VType} :
    UsableAt (values.map change) n x ↔ x ≠ .top ∧ ∃ v, UsableAt values n v ∧ change v = x := by
  unfold UsableAt
  rw [valueAt?_map hwidth, Option.map_eq_some_iff]
  constructor
  · rintro ⟨⟨v, hv, rfl⟩, hne⟩
    exact ⟨hne, v, ⟨hv, fun heq => hne (by rw [heq, htop])⟩, rfl⟩
  · rintro ⟨hne, v, ⟨hv, _⟩, hx⟩
    exact ⟨⟨v, hv, hx⟩, hne⟩

/-- Frames with one snapshot have one after a constructor was called, since nothing is made of an
unusable word. -/
theorem construct_congr (h : f.snapshot = g.snapshot) (v : VType) (this : ClassName) :
    (f.construct v this).snapshot = (g.construct v this).snapshot := by
  obtain ⟨hstack, hlocals⟩ := snapshot_eq_iff.mp h
  refine snapshot_eq_iff.mpr ⟨?_, fun n x => ?_⟩
  · show f.stack.map _ = g.stack.map _
    rw [hstack]
  · show UsableAt (WordSeq.ofList _).toList n x ↔ UsableAt (WordSeq.ofList _).toList n x
    rw [WordSeq.toList_ofList, WordSeq.toList_ofList]
    have hiff := @usableAt_map_iff _ (width_construct v this) (construct_top v this)
    rw [hiff, hiff]
    simp only [hlocals]

end Frame

/-! ## Execution

Instructions act by loading, storing and constructing, besides what they do to the stack. So having
one snapshot is a likeness, and the walk through the actions need not be made again. -/

/-- Frames with one snapshot are alike: they have the same stack, and they load the same. -/
def Likeness.snapshot : Likeness :=
  .ofEq (fun _ => True) (fun _ _ => trivial) (fun f g => f.snapshot = g.snapshot)
    (fun _ _ h => (Frame.snapshot_eq_iff.mp h).1) (fun _ _ h => Frame.snapshot_withStack h)
    (fun _ _ h => Frame.load_congr h) (fun _ _ h => Frame.store_congr h)
    fun _ _ h => Frame.construct_congr h

namespace Frame

variable {f f' g g' : Frame}

/-- What an operation shows of its frame: the snapshot of what it gives, or the cause of its failure
with the snapshot of what it leaves behind. -/
def Outcome.snapshot : Outcome Frame → Except (Fault FrameError (Snapshot VType)) (Snapshot VType)
  | .ok f => .ok f.snapshot
  | .error e => .error ⟨e.cause, e.left.snapshot⟩

/-- Frames with one snapshot show the same of any actions: the snapshot of the result, or the cause
of the failure and the snapshot of what is left. -/
theorem perform_congr (h : f.snapshot = g.snapshot) (actions : List Action) :
    Outcome.snapshot (f.perform actions) = Outcome.snapshot (g.perform actions) := by
  have hactions : List.Forall₂ (Action.Like Eq fun e e' => e = e' ∧ True) actions actions :=
    List.forall₂_same.mpr fun a _ => .refl (fun _ => rfl) a fun _ _ => ⟨rfl, trivial⟩
  obtain ⟨e, e', hf, hg, ⟨hcause, _⟩, hleft⟩ | ⟨f₁, g₁, hf, hg, hfg⟩ :=
    (Likeness.snapshot.agree_perform h hactions).cases
  · rw [hf, hg, Outcome.snapshot, Outcome.snapshot, hcause,
      show e.left.snapshot = e'.left.snapshot from hleft]
  · rw [hf, hg]
    exact congrArg Except.ok hfg

/-- The cause of a failure and the snapshot of a result are part of what an operation shows. -/
theorem Outcome.map_snapshot (x : Outcome Frame) :
    (x.mapError Fault.cause).map Frame.snapshot = (Outcome.snapshot x).mapError Fault.cause := by
  cases x <;> rfl

/-! ## Merging

The stack is merged value by value and the locals slot by slot, and frames with one snapshot have
the same of both. -/

/-- Merging fails for the same cause or gives one snapshot, whichever of the frames with one
snapshot take part. -/
theorem merge_congr (hf : f.snapshot = f'.snapshot) (hg : g.snapshot = g'.snapshot)
    (oracle : Oracle) :
    (f.merge oracle g).map snapshot = (f'.merge oracle g').map snapshot := by
  obtain ⟨hfstack, hflocals⟩ := snapshot_eq_iff_slotAt.mp hf
  obtain ⟨hgstack, hglocals⟩ := snapshot_eq_iff_slotAt.mp hg
  have hfwords : f.stackWords = f'.stackWords := congrArg wordCount hfstack
  have hgwords : g.stackWords = g'.stackWords := congrArg wordCount hgstack
  have hdepth : f.sameDepth g = f'.sameDepth g' := by
    rw [sameDepth, sameDepth, hfstack, hgstack, hfwords, hgwords]
  unfold merge
  rw [hdepth, hfstack, hgstack, hfwords, hgwords]
  cases f'.sameDepth g' with
  | false => rfl
  | true =>
    generalize (List.mapM _ (f'.stack.reverse.zip g'.stack.reverse) :
      Except FrameError (List VType)) = merged
    cases merged with
    | error e => rfl
    | ok stack =>
      -- the stacks are the same, and the locals are merged slot by slot
      refine congrArg Except.ok (snapshot_eq_iff_slotAt.mpr ⟨rfl, fun n => ?_⟩)
      rw [WordSeq.toList_ofList, WordSeq.toList_ofList, slotAt_mergeLocals, slotAt_mergeLocals,
        hflocals, hglocals]

end Frame

/-! ## Runs

A move is one thing that may happen to a frame while a body is analyzed. A run of them may keep
snapshots instead of frames, since each move shows the same of a frame and of what its snapshot
keeps. -/

/-- One thing that happens to the frame at a place, where the frames it meets are kept as `φ`. -/
inductive Move (φ : Type) where
  | execute (this : ClassName) (site : Option Label) (i : Instruction)
  | branch (result : Option FieldType) (b : Branch)
  /-- An exception passes control to a handler of this type. -/
  | caught (t : RefType)
  /-- The other frame is merged into this one. -/
  | absorb (oracle : Oracle) (other : φ)
  /-- This frame is merged into the other one. -/
  | join (oracle : Oracle) (other : φ)

namespace Move

def map {φ ψ : Type} (keep : φ → ψ) : Move φ → Move ψ
  | execute this site i => .execute this site i
  | branch result b => .branch result b
  | caught t => .caught t
  | absorb oracle other => .absorb oracle (keep other)
  | join oracle other => .join oracle (keep other)

def apply : Move Frame → Frame → Except FrameError Frame
  | execute this site i, f => (f.execute this site i).mapError Fault.cause
  | branch result b, f => (f.executeBranch result b).mapError Fault.cause
  | caught t, f => .ok (f.caught t)
  | absorb oracle other, f => f.merge oracle other
  | join oracle other, f => other.merge oracle f

end Move

/-- The frame with nothing after what a snapshot keeps. -/
def Snapshot.frame (s : Snapshot VType) : Frame := .ofValues s.locals s.stack

/-- What a run of moves makes of a frame. -/
def Frame.run (moves : List (Move Frame)) (f : Frame) : Except FrameError Frame :=
  moves.foldlM (fun f move => move.apply f) f

/-- The same run where only snapshots are kept, of the frame between the moves and of the frames
that it meets. -/
def Snapshot.run (moves : List (Move (Snapshot VType))) (s : Snapshot VType) :
    Except FrameError (Snapshot VType) :=
  moves.foldlM (fun s move => ((move.map frame).apply s.frame).map Frame.snapshot) s

theorem Snapshot.snapshot_frame (f : Frame) : f.snapshot.frame.snapshot = f.snapshot := by
  refine Frame.snapshot_eq_iff.mpr ⟨List.reverse_reverse _, fun n v => ?_⟩
  show UsableAt (WordSeq.ofList (trim f.locals.toList)).toList n v ↔ _
  rw [WordSeq.toList_ofList, usableAt_trim_iff]

/-- A move shows the same of frames with one snapshot, also where the frames it meets are replaced
by what their snapshots keep. -/
theorem Move.apply_congr {f g : Frame} (h : f.snapshot = g.snapshot) (move : Move Frame) :
    (move.apply f).map Frame.snapshot
      = (((move.map Frame.snapshot).map Snapshot.frame).apply g).map Frame.snapshot := by
  cases move with
  | execute this site i =>
    show Except.map _ (Except.mapError _ (f.perform _)) = Except.map _ (Except.mapError _ (g.perform _))
    rw [Frame.Outcome.map_snapshot, Frame.Outcome.map_snapshot, Frame.perform_congr h]
  | branch result b =>
    show Except.map _ (Except.mapError _ (f.perform _)) = Except.map _ (Except.mapError _ (g.perform _))
    rw [Frame.Outcome.map_snapshot, Frame.Outcome.map_snapshot, Frame.perform_congr h]
  | caught t => exact congrArg Except.ok (Frame.snapshot_withStack h [.object t])
  | absorb oracle other => exact Frame.merge_congr h (Snapshot.snapshot_frame other).symm oracle
  | join oracle other => exact Frame.merge_congr (Snapshot.snapshot_frame other).symm h oracle

namespace Frame

variable {f g : Frame}

/-- A run on frames shows what the run on their snapshots gives. -/
theorem map_snapshot_run (moves : List (Move Frame)) (f : Frame) :
    (f.run moves).map snapshot = f.snapshot.run (moves.map (Move.map snapshot)) := by
  induction moves generalizing f with
  | nil => rfl
  | cons move rest ih =>
    -- the first move shows the same, and what it gives is kept as its snapshot
    have hmove := move.apply_congr (Snapshot.snapshot_frame f).symm
    rw [run, Snapshot.run, List.map_cons, List.foldlM_cons, List.foldlM_cons, ← hmove]
    cases move.apply f with
    | error e => rfl
    | ok f₁ => exact ih f₁

/-- Frames with one snapshot cannot be told apart: not by an instruction or a branch, not by merging
them with others, and not by a run of any length, which needs no more than snapshots itself. -/
theorem snapshot_eq_is_congruence (hfg : f.snapshot = g.snapshot) :
    (∀ this site i,
      Outcome.snapshot (f.execute this site i) = Outcome.snapshot (g.execute this site i))
    ∧ (∀ result b,
      Outcome.snapshot (f.executeBranch result b) = Outcome.snapshot (g.executeBranch result b))
    ∧ (∀ oracle h, (f.merge oracle h).map snapshot = (g.merge oracle h).map snapshot
      ∧ (h.merge oracle f).map snapshot = (h.merge oracle g).map snapshot)
    ∧ ∀ moves, (f.run moves).map snapshot = (g.run moves).map snapshot
      ∧ (f.run moves).map snapshot = f.snapshot.run (moves.map (Move.map snapshot)) := by
  refine ⟨fun this site i => perform_congr hfg (i.actions this site),
    fun result b => perform_congr hfg (b.actions result),
    fun oracle h => ⟨merge_congr hfg rfl oracle, merge_congr rfl hfg oracle⟩,
    fun moves => ⟨?_, map_snapshot_run moves f⟩⟩
  rw [map_snapshot_run, map_snapshot_run, hfg]

/-- A `long` is stored over the unusable words at the end of the locals of one frame and past the
end of the other's; then a frame with an unusable word of its own at the end is merged in. -/
theorem snapshot_eq_is_congruence_trailing_locals :
    let f := ofValues [.integer, .top, .top] [.long]
    let g := ofValues [.integer] [.long]
    let moves : List (Move Frame) := [.execute .object none (.store (.number .long) 2),
      .absorb (fun _ _ => .object .object) (ofValues [.float, .top, .long, .top] [])]
    f ≠ g ∧ f.snapshot = g.snapshot ∧ (f.run moves).map snapshot = (g.run moves).map snapshot
      ∧ (f.run moves).map snapshot = .ok ⟨[.top, .top, .long], []⟩ := by
  intro f g moves
  have hsnapshot : f.snapshot = g.snapshot := by decide
  have hruns := (snapshot_eq_is_congruence hsnapshot).2.2.2 moves
  refine ⟨by decide, hsnapshot, hruns.1, hruns.1.trans ?_⟩
  decide

end Frame

end JvmFrames
