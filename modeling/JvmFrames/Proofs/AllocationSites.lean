import JvmFrames.Proofs.Closure
import JvmFrames.Proofs.MergeOrder
import JvmFrames.Proofs.Values

/-!
# Objects of one allocation site

A value under construction is known by the label before its `new`, so a frame cannot tell apart two
objects that the same `new` has made. It has to lose the older one before the `new` is executed
again. Control that comes back to a `new` passes a join label on its way, and there the older object
meets what was in its place when the label was first reached. The merge drops the older object, but
for one case: beside an initialized object of its class it stays (`Revived`).

The invariant is `Body.Tracks`. Until the last join label before a `new` is reached, no frame has a
value of its site. Afterwards the merged frame at that label has none unless one was revived there,
and straight execution from the label to the `new` brings none in.
-/

namespace JvmFrames

/-! ## Spots

What is revived depends on what meets at one place of a frame, so frames are taken apart into their
places. Merging, seen at one spot, is merging of values. -/

/-- Where a frame has a value: at a word of its locals, or on its stack, counted from the bottom. -/
inductive Spot where
  | word (n : Nat)
  | operand (n : Nat)

namespace Spot

/-- The value of a snapshot at a spot; `top` where it has none. -/
def value (s : Snapshot VType) : Spot → VType
  | word n => slotAt s.locals n
  | operand n => s.stack[n]?.getD .top

/-- What some snapshots, the latest first, have at a spot once they are merged in the order in which
they have arrived. -/
def merged? (oracle : Oracle) (spot : Spot) : List (Snapshot VType) → Option VType
  | [] => none
  | latest :: older => match spot.merged? oracle older with
    | none => some (spot.value latest)
    | some v => some (mergeSlot oracle v (spot.value latest))

variable {oracle : Oracle} {f g m : Frame}

theorem value_word (f : Frame) (n : Nat) :
    (word n).value f.snapshot = slotAt f.locals.toList n :=
  slotAt_eq_of_usableAt_iff fun _ => usableAt_trim_iff

theorem value_operand (f : Frame) (n : Nat) :
    (operand n).value f.snapshot = f.stack.reverse[n]?.getD .top := rfl

/-- What fits on a stack merges like what meets in a slot. -/
theorem getD_zipWith_merge {a b : List VType} (h : List.Forall₂ (VType.Fits oracle) a b) (n : Nat) :
    (List.zipWith (VType.merge oracle) a b)[n]?.getD .top
      = mergeSlot oracle (a[n]?.getD .top) (b[n]?.getD .top) := by
  induction h generalizing n with
  | nil => rfl
  | cons hvw _ ih =>
    cases n with
    | zero => exact (if_pos hvw.1).symm
    | succ n => exact ih n

/-- Frames merge spot by spot. -/
theorem value_merge (h : f.merge oracle g = .ok m) (spot : Spot) :
    spot.value m.snapshot = mergeSlot oracle (spot.value f.snapshot) (spot.value g.snapshot) := by
  cases spot with
  | word n => rw [value_word, value_word, value_word, Frame.slotAt_merge h]
  | operand n =>
    obtain ⟨hfits, rfl⟩ := Frame.merge_eq_ok_iff.mp h
    rw [value_operand, value_operand, value_operand, List.reverse_zipWith hfits.length_eq]
    exact getD_zipWith_merge (List.rel_reverse hfits) n

end Spot

/-- A value of a list of locals starts at some word. -/
theorem exists_valueAt?_of_mem {values : List VType} {v : VType} (h : v ∈ values) :
    ∃ n, valueAt? values n = some v := by
  induction values with
  | nil => cases h
  | cons w rest ih =>
    rcases List.mem_cons.mp h with rfl | h
    · exact ⟨0, rfl⟩
    · obtain ⟨n, hn⟩ := ih h
      have hpos := width_pos w
      refine ⟨n + width w, ?_⟩
      rw [valueAt?, if_neg (by omega), if_neg (by omega), Nat.add_sub_cancel, hn]

/-- All values of a frame have a property if it has only such values at all spots. -/
theorem Frame.holds_iff_value {P : VType → Prop} (htop : P .top) {f : Frame} :
    f.Holds P ↔ ∀ spot : Spot, P (spot.value f.snapshot) := by
  constructor
  · rintro ⟨hlocals, hstack⟩ spot
    cases spot with
    | word n =>
      rw [Spot.value_word, slotAt]
      -- beyond the locals, and inside of wide values, a word counts as `top`
      cases hv : valueAt? f.locals.toList n with
      | none => exact htop
      | some v => exact hlocals v (mem_of_valueAt? hv)
    | operand n =>
      rw [Spot.value_operand]
      cases hv : f.stack.reverse[n]? with
      | none => exact htop
      | some v => exact hstack v (List.mem_reverse.mp (List.mem_of_getElem? hv))
  · intro h
    constructor
    · intro v hv
      -- conversely every value is at some spot: a local where it begins, an operand at its depth
      obtain ⟨n, hn⟩ := exists_valueAt?_of_mem hv
      have hvalue := h (.word n)
      rw [Spot.value_word, slotAt, hn] at hvalue
      exact hvalue
    · intro v hv
      obtain ⟨n, hn⟩ := List.mem_iff_getElem?.mp (List.mem_reverse.mpr hv)
      have hvalue := h (.operand n)
      rw [Spot.value_operand, hn] at hvalue
      exact hvalue

/-- The merged frame of a join point is what the snapshots that have arrived come to. -/
def JoinPoint.Replays (oracle : Oracle) (j : JoinPoint) : Prop :=
  ∀ spot : Spot, spot.merged? oracle j.seen = j.merged.map fun m => spot.value m.snapshot

/-- A reception adds its snapshot to what has arrived and merges it last. -/
theorem JoinPoint.Replays.receives {oracle : Oracle} {j k : JoinPoint} {f : Frame}
    (hj : j.Replays oracle) (hk : j.Receives oracle f k) : k.Replays oracle := by
  intro spot
  have hspot := hj spot
  -- both the merged frame and the list of snapshots get the new one on top
  cases hk with
  | first _ hnone =>
    rw [hnone] at hspot
    simp only [Spot.merged?, hspot, Option.map_none, Option.map_some]
  | joined current m _ hcurrent hmerge =>
    rw [hcurrent] at hspot
    simp only [Spot.merged?, hspot, Option.map_some, Spot.value_merge hmerge]

/-! ## Sites

A frame is free of the values of a site if each of its values is `Apart` from it. Merging brings
such a value in at one kind of spot only, and that is what `Revived` records. -/

namespace VType

/-- The label before the `new` that made a value under construction. -/
def site? : VType → Option Label
  | .uninitialized u => some u.site
  | _ => none

/-- A value that was not made at a site, or is not under construction any more. -/
def Apart (s : Label) (v : VType) : Prop := v.site? ≠ some s

variable {oracle : Oracle} {s : Label} {v w : VType}

theorem apart_of_eq_none (h : v.site? = none) : v.Apart s := by
  rw [Apart, h]
  exact nofun

/-- The values of a site are the objects under construction that carry its label. -/
theorem not_apart_iff : ¬ v.Apart s ↔ ∃ c, v = .allocated c s := by
  unfold Apart
  rw [not_not]
  constructor
  · intro h
    cases v with
    | uninitialized u => exact ⟨u.className, by rw [allocated, ← Option.some.inj h]⟩
    | _ => cases h
  · rintro ⟨c, rfl⟩
    rfl

/-- Instructions other than `new` make no value of a site. -/
theorem closed_apart (s : Label) (this : ClassName) : VType.Closed (Apart s) this where
  top := apart_of_eq_none rfl
  integer := apart_of_eq_none rfl
  float := apart_of_eq_none rfl
  long := apart_of_eq_none rfl
  double := apart_of_eq_none rfl
  null := apart_of_eq_none rfl
  element := fun v _ => by
    unfold elementOf
    split
    · split
      all_goals exact apart_of_eq_none rfl
    · exact apart_of_eq_none rfl
  constructed := fun v _ => by
    -- even what was of the site is an object of no site once it is constructed
    cases v
    all_goals exact apart_of_eq_none rfl

/-- A value of a site is brought into a slot only by one that meets an initialized object there. -/
theorem apart_mergeSlot (hv : v.Apart s)
    (hmeets : ∀ c, v = .object (.object c) → w ≠ .allocated c s) :
    (mergeSlot oracle v w).Apart s := by
  by_contra h
  obtain ⟨c, hc⟩ := not_apart_iff.mp h
  unfold mergeSlot at hc
  split at hc
  · rcases merge_eq_uninitialized_iff.mp hc with ⟨hv', _⟩ | ⟨hv', hw⟩
    · exact not_apart_iff.mpr ⟨c, hv'⟩ hv
    · exact hmeets c hv' hw
  · cases hc

end VType

/-- Among snapshots that have arrived, the latest first, one has brought a value of a site to a spot
where those before it had come to an initialized object of its class. -/
inductive Revived (oracle : Oracle) (s : Label) : List (Snapshot VType) → Prop where
  | met (spot : Spot) (c : ClassName) (latest : Snapshot VType) (older : List (Snapshot VType))
      (hmerged : spot.merged? oracle older = some (.object (.object c)))
      (hvalue : spot.value latest = .allocated c s) : Revived oracle s (latest :: older)
  | earlier (latest : Snapshot VType) (older : List (Snapshot VType))
      (h : Revived oracle s older) : Revived oracle s (latest :: older)

/-- A join point without a value of a site stays without, if a frame that is the first there or
revives such a value has none. -/
theorem JoinPoint.Receives.apart {oracle : Oracle} {s : Label} {j k : JoinPoint} {f m : Frame}
    (hk : j.Receives oracle f k) (hj : j.Replays oracle)
    (hmerged : ∀ m, j.merged = some m → m.Holds (VType.Apart s))
    (hf : j.merged = none ∨ Revived oracle s k.seen → f.Holds (VType.Apart s))
    (hm : k.merged = some m) : m.Holds (VType.Apart s) := by
  have htop : VType.Apart s .top := VType.apart_of_eq_none rfl
  cases hk with
  | first _ hnone =>
    cases hm
    exact hf (Or.inl hnone)
  | joined current m _ hcurrent hmerge =>
    cases hm
    rw [Frame.holds_iff_value htop]
    intro spot
    rw [Spot.value_merge hmerge]
    refine VType.apart_mergeSlot ((Frame.holds_iff_value htop).mp (hmerged current hcurrent) spot) ?_
    intro c hobject hvalue
    have hspot := hj spot
    rw [hcurrent, Option.map_some, hobject] at hspot
    -- the frame that revives a value of the site has one
    have hapart := (Frame.holds_iff_value htop).mp
      (hf (Or.inr (.met spot c _ j.seen hspot hvalue))) spot
    exact VType.not_apart_iff.mpr ⟨c, hvalue⟩ hapart

/-! ## The straight line before an allocation

Between the last join label and a `new` there is only one way, and each path on it has come from
that label. -/

namespace JoinGraph

/-- There is no join label from one position up to another. -/
def Straight (g : JoinGraph) (code : Code) (q p : Nat) : Prop :=
  q ≤ p ∧ ∀ r l, q ≤ r → r < p → code.nodes[r]? = some (.label l) → g.isJoin l = false

variable {g g' graph : JoinGraph} {code : Code} {q p : Nat} {l l' : Label} {j j' : JoinPoint}

theorem Straight.refl (g : JoinGraph) (code : Code) (p : Nat) : g.Straight code p p :=
  ⟨Nat.le_refl p, fun _ _ hle hlt _ => absurd hlt (by omega)⟩

/-- A line is as straight with one more node in front, if that is no join label. -/
theorem Straight.of_succ (h : g.Straight code (q + 1) p)
    (hnode : ∀ l, code.nodes[q]? = some (.label l) → g.isJoin l = false) : g.Straight code q p := by
  obtain ⟨hle, hline⟩ := h
  refine ⟨by omega, fun r l hqr hrp hr => ?_⟩
  by_cases heq : r = q
  · rw [heq] at hr
    exact hnode l hr
  · exact hline r l (by omega) hrp hr

/-- No straight line passes a join label. -/
theorem Straight.not_of_join (hbuilt : g.Built code) (hj : g.join? l = some j)
    (hline : g.Straight code (j.position + 1) p) (hq : q ≤ j.position) : ¬ g.Straight code q p := by
  intro h
  have hfalse := h.2 j.position l hq hline.1 (hbuilt.node_of_join? hj)
  rw [isJoin_of_join? hj] at hfalse
  cases hfalse

/-- There is only one last join label before a position. -/
theorem eq_of_straight (hbuilt : g.Built code) (hj : g.join? l = some j) (hj' : g.join? l' = some j')
    (hline : g.Straight code (j.position + 1) p) (hline' : g.Straight code (j'.position + 1) p) :
    j' = j := by
  have hposition : j'.position = j.position := by
    by_contra hne
    rcases Nat.lt_or_gt_of_ne hne with hlt | hlt
    · exact hline.not_of_join hbuilt hj hlt hline'
    · exact hline'.not_of_join hbuilt hj' hlt hline
  have hnode := hbuilt.node_of_join? hj'
  rw [hposition, hbuilt.node_of_join? hj] at hnode
  cases hnode
  exact Option.some.inj (hj'.symm.trans hj)

theorem Grows.straight_iff (h : g.Grows g') : g'.Straight code q p ↔ g.Straight code q p := by
  unfold Straight
  simp only [h.isJoin]

end JoinGraph

/-! ## The invariant

All paths that are live are looked at together with the graph. What is known of a frame depends on
where it is: on the line, it is free of the site; elsewhere only while nothing has come to the line
yet. -/

/-- Nothing has arrived yet at the last join label before a position. -/
def JoinGraph.Awaits (g : JoinGraph) (code : Code) (p : Nat) : Prop :=
  ∃ l j, g.join? l = some j ∧ g.Straight code (j.position + 1) p ∧ j.merged = none

/-- No value of a site was revived at the last join label before a position. -/
def JoinGraph.Unrevived (g : JoinGraph) (code : Code) (oracle : Oracle) (p : Nat) (s : Label) :
    Prop :=
  g.All fun _ j => g.Straight code (j.position + 1) p → ¬ Revived oracle s j.seen

namespace JoinGraph

variable {g : JoinGraph} {code : Code} {oracle : Oracle} {p : Nat} {s l : Label} {j i : JoinPoint}

/-- A line that still awaits something did so before. -/
theorem Awaits.of_setJoin (hj : g.join? l = some j) (hgrow : j.Grows i)
    (hreached : i.merged = none → j.merged = none) (h : (g.setJoin i).Awaits code p) :
    g.Awaits code p := by
  obtain ⟨l', j', hj', hline, hnone⟩ := h
  rw [(Grows.setJoin hj hgrow).straight_iff] at hline
  rw [join?_setJoin hj hgrow.label] at hj'
  by_cases hl : l' = l
  · rw [if_pos hl] at hj'
    cases hj'
    rw [hgrow.position] at hline
    exact ⟨l, j, hj, hline, hreached hnone⟩
  · rw [if_neg hl] at hj'
    exact ⟨l', j', hj', hline, hnone⟩

/-- What has not been revived by now had not been before. -/
theorem Unrevived.of_setJoin (hj : g.join? l = some j) (hgrow : j.Grows i)
    (hrevived : Revived oracle s j.seen → Revived oracle s i.seen)
    (h : (g.setJoin i).Unrevived code oracle p s) :
    g.Unrevived code oracle p s
      ∧ (g.Straight code (j.position + 1) p → ¬ Revived oracle s i.seen) := by
  have hgrows : g.Grows (g.setJoin i) := .setJoin hj hgrow
  have hi : g.Straight code (j.position + 1) p → ¬ Revived oracle s i.seen := by
    intro hline
    rw [← hgrow.position, ← hgrows.straight_iff] at hline
    exact h l i (join?_setJoin_self hj hgrow.label) hline
  refine ⟨fun l' j' hj' hline => ?_, hi⟩
  -- the join point that was replaced goes by `hi`; all others are still in the graph
  by_cases hl : l' = l
  · subst hl
    cases hj.symm.trans hj'
    exact fun hrev => hi hline (hrevived hrev)
  · rw [← join?_setJoin_ne hj hgrow.label hl] at hj'
    exact h l' j' hj' (hgrows.straight_iff.mpr hline)

end JoinGraph

/-- Frames on the straight line before a position are without values of a site, and so are all
frames as long as the line awaits its first one. -/
structure Body.Parts (body : Body) (p : Nat) (s : Label) (g : JoinGraph)
    (live : List (Nat × Frame)) : Prop where
  paths : ∀ x ∈ live, g.Straight body.code x.1 p ∨ g.Awaits body.code p → x.2.Holds (VType.Apart s)
  joins : g.All fun _ j => g.Straight body.code (j.position + 1) p ∨ g.Awaits body.code p →
    ∀ f, j.merged = some f → f.Holds (VType.Apart s)
  begun : ∀ x ∈ live, g.Straight body.code x.1 p → ¬ g.Awaits body.code p

/-- The frames of paths and of join points are parted as long as nothing is revived. -/
structure Body.Tracks (body : Body) (p : Nat) (s : Label) (g : JoinGraph)
    (live : List (Nat × Frame)) : Prop where
  built : g.Built body.code
  replays : g.All fun _ j => j.Replays body.oracle
  parts : g.Unrevived body.code body.oracle p s → body.Parts p s g live

namespace Body.Tracks

variable {body : Body} {p q : Nat} {s l : Label} {g g' : JoinGraph} {live live' : List (Nat × Frame)}
variable {f f' m : Frame} {j k i : JoinPoint}

/-- At the start no value has been made at any site. -/
theorem start {graph : JoinGraph} (hbuilt : graph.Built body.code) (hfresh : graph.Fresh)
    (p : Nat) (s : Label) : body.Tracks p s graph [(0, Frame.entry body.method)] where
  built := hbuilt
  replays := fun l j hj spot => by
    obtain ⟨hmerged, hseen, _⟩ := hfresh l j hj
    rw [hmerged, hseen]
    rfl
  parts := fun _ => by
    have hclosed := VType.closed_apart s body.method.className
    refine ⟨?_, ?_, ?_⟩
    · intro x hx _
      rw [List.mem_singleton.mp hx]
      exact Frame.holds_entry hclosed
        (fun _ => VType.receiver_of (VType.apart_of_eq_none rfl) (VType.apart_of_eq_none rfl) _)
        fun _ _ => VType.apart_of_eq_none rfl
    · intro l j hj _ f hf
      rw [(hfresh l j hj).1] at hf
      cases hf
    · rintro x hx hline ⟨l, j, hj, hstraight, _⟩
      rw [List.mem_singleton.mp hx] at hline
      -- there is no join label before a line that goes back to the start
      exact hstraight.not_of_join hbuilt hj (Nat.zero_le _) hline

/-- Fewer paths are live, and the same is known of them. -/
theorem mono (h : body.Tracks p s g live) (hsubset : ∀ x ∈ live', x ∈ live) :
    body.Tracks p s g live' where
  built := h.built
  replays := h.replays
  parts := fun hnone => by
    have hparts := h.parts hnone
    exact ⟨fun x hx => hparts.paths x (hsubset x hx), hparts.joins,
      fun x hx => hparts.begun x (hsubset x hx)⟩

/-- A join point is replaced by one that has received something, or is no longer pending. -/
theorem setJoin (h : body.Tracks p s g live) (hj : g.join? l = some j) (hgrow : j.Grows i)
    (hreplays : i.Replays body.oracle) (hreached : i.merged = none → j.merged = none)
    (hrevived : Revived body.oracle s j.seen → Revived body.oracle s i.seen)
    (hmerged : body.Parts p s g live →
      (g.Straight body.code (j.position + 1) p → ¬ Revived body.oracle s i.seen) →
      g.Straight body.code (j.position + 1) p ∨ g.Awaits body.code p →
      ∀ f, i.merged = some f → f.Holds (VType.Apart s)) :
    body.Tracks p s (g.setJoin i) live := by
  have hgrows : g.Grows (g.setJoin i) := .setJoin hj hgrow
  refine ⟨h.built.grows hgrows, h.replays.setJoin hj hgrow.label hreplays, fun hnone => ?_⟩
  obtain ⟨hnone, hi⟩ := hnone.of_setJoin hj hgrow hrevived
  have hparts := h.parts hnone
  -- lines and awaited frames of the new graph were there in the old one, so its parts apply
  have hline : ∀ {q}, (g.setJoin i).Straight body.code q p ∨ (g.setJoin i).Awaits body.code p →
      g.Straight body.code q p ∨ g.Awaits body.code p :=
    Or.imp hgrows.straight_iff.mp (JoinGraph.Awaits.of_setJoin hj hgrow hreached)
  refine ⟨fun x hx hx' => hparts.paths x hx (hline hx'), ?_, ?_⟩
  · -- the replaced join point is the only one about which `hparts` says nothing
    refine JoinGraph.All.setJoin (fun l' j' hj' hj'' => hparts.joins l' j' hj' (hline hj'')) hj
      hgrow.label fun hi' => hmerged hparts hi ?_
    rw [hgrow.position] at hi'
    exact hline hi'
  · intro x hx hstraight hawaits
    exact hparts.begun x hx (hgrows.straight_iff.mp hstraight)
      (hawaits.of_setJoin hj hgrow hreached)

theorem withPending (h : body.Tracks p s g live) (hj : g.join? l = some j) (b : Bool) :
    body.Tracks p s (g.setJoin (j.withPending b)) live :=
  h.setJoin hj (j.grows_withPending b) (h.replays l j hj) id id
    fun hparts _ hline => hparts.joins l j hj hline

/-- A frame arrives at a join point that it may only be the first to reach, or revive a value at, if
it has none of the site. -/
theorem receive (h : body.Tracks p s g live) (hj : g.join? l = some j)
    (hk : j.Receives body.oracle f k) (hgrow : j.Grows i) (hi : i.merged = k.merged)
    (hseen : i.seen = k.seen)
    (hf : body.Parts p s g live → g.Awaits body.code p → f.Holds (VType.Apart s)) :
    body.Tracks p s (g.setJoin i) live := by
  have hreplays : i.Replays body.oracle := by
    intro spot
    rw [hi, hseen]
    exact (h.replays l j hj).receives hk spot
  refine h.setJoin hj hgrow hreplays ?_ ?_ ?_
  · intro hnone
    have hsome := hk.isSome_merged
    rw [← hi, hnone] at hsome
    cases hsome
  · intro hrev
    rw [hseen, hk.seen]
    exact .earlier _ _ hrev
  · intro hparts hunrevived hline m hm
    rw [hi] at hm
    rw [hseen] at hunrevived
    refine hk.apart (h.replays l j hj) (hparts.joins l j hj hline) ?_ hm
    rcases hline with hstraight | hawaits
    · -- whatever is the first at the head of the line was awaited there
      rintro (hnone | hrev)
      · exact hf hparts ⟨l, j, hj, hstraight, hnone⟩
      · exact absurd hrev (hunrevived hstraight)
    · exact fun _ => hf hparts hawaits

/-! ### Moves

A move passes frames on, merges them into join points, or executes something. Each of the three is
looked at on its own, and `Moves.tracks` puts them together. -/

/-- The locals of a path's frame flow into handlers. -/
theorem feed (h : body.Tracks p s g live) (hmem : (q, f) ∈ live) {r : Nat}
    (hfeed : g.feed body.oracle r f = .ok g') : body.Tracks p s g' live := by
  refine JoinGraph.feed_induction (motive := fun g₁ => body.Tracks p s g₁ live) ?_ hfeed h
  intro g₁ l j k t _ hg₁ hj _ hk
  refine hg₁.receive hj hk hk.grows_alerted (k.alerted_merged j) (k.alerted_seen j) ?_
  intro hparts hawaits
  refine (hparts.paths _ hmem (Or.inr hawaits)).withStack fun v hv => ?_
  rw [List.mem_singleton.mp hv]
  exact VType.apart_of_eq_none rfl

/-- A path's frame arrives at a label. -/
theorem marks (h : body.Tracks p s g live) (hmem : (q, f) ∈ live) {changed : Bool}
    (hmarks : JoinGraph.Marks body.oracle f l g g' changed) : body.Tracks p s g' live := by
  have hf : body.Parts p s g live → g.Awaits body.code p → f.Holds (VType.Apart s) :=
    fun hparts hawaits => hparts.paths _ hmem (Or.inr hawaits)
  cases hmarks with
  | known j _ _ => exact h
  | unchanged j k hj hk _ => exact h.receive hj hk hk.grows rfl rfl hf
  | changed j k g' hj hk _ hfeed => exact (h.receive hj hk hk.grows rfl rfl hf).feed hmem hfeed

/-- A path goes on from a join point that has been reached. -/
theorem resume (h : body.Tracks p s g live) (hk : g.join? l = some k) (hm : k.merged = some m) :
    body.Tracks p s g ((k.position + 1, m) :: live) where
  built := h.built
  replays := h.replays
  parts := fun hnone => by
    have hparts := h.parts hnone
    refine ⟨?_, hparts.joins, ?_⟩
    · rintro x hx hline
      rcases List.mem_cons.mp hx with rfl | hx
      · exact hparts.joins l k hk hline m hm
      · exact hparts.paths x hx hline
    · rintro x hx hline hawaits
      rcases List.mem_cons.mp hx with rfl | hx
      · -- this is the last join label before the position, and it is not awaited
        obtain ⟨l', j, hj, hstraight, hunreached⟩ := hawaits
        rw [JoinGraph.eq_of_straight h.built hk hj hline hstraight, hm] at hunreached
        cases hunreached
      · exact hparts.begun x hx hline hawaits

/-- A path passes a node that is no join label. Only at the position itself may it gain a value of
the site. -/
theorem advance (h : body.Tracks p s g ((q, f) :: live))
    (hnode : ∀ l, body.code.nodes[q]? = some (.label l) → g.isJoin l = false)
    (hf : q ≠ p → f.Holds (VType.Apart s) → f'.Holds (VType.Apart s)) :
    body.Tracks p s g ((q + 1, f') :: live) where
  built := h.built
  replays := h.replays
  parts := fun hnone => by
    have hparts := h.parts hnone
    have hhead : (q, f) ∈ (q, f) :: live := List.mem_cons_self ..
    refine ⟨?_, hparts.joins, ?_⟩
    · intro x hx hline
      rcases List.mem_cons.mp hx with rfl | hx
      · rcases hline with hstraight | hawaits
        · have hne : q ≠ p := Nat.ne_of_lt hstraight.1
          exact hf hne (hparts.paths _ hhead (Or.inl (hstraight.of_succ hnode)))
        · -- a path that is at the position has come along the line, which awaits nothing then
          have hne : q ≠ p := by
            rintro rfl
            exact hparts.begun _ hhead (.refl g body.code q) hawaits
          exact hf hne (hparts.paths _ hhead (Or.inr hawaits))
      · exact hparts.paths x (List.mem_cons_of_mem _ hx) hline
    · intro x hx hline
      rcases List.mem_cons.mp hx with rfl | hx
      · exact hparts.begun _ hhead (hline.of_succ hnode)
      · exact hparts.begun x (List.mem_cons_of_mem _ hx) hline

/-- A branch brings its frame to all of its targets, one by one. -/
theorem markTargets {labels : List Label} {work work' : List (Nat × Frame)}
    (h : body.Tracks p s g ((q, f) :: work))
    (hmark : JoinGraph.markTargets body.oracle f labels g work = .ok (g', work')) :
    body.Tracks p s g' ((q, f) :: work') := by
  refine JoinGraph.markTargets_induction
    (motive := fun g₁ w => body.Tracks p s g₁ ((q, f) :: w)) ?_ ?_ hmark h
  · intro g₁ g₂ w l _ hw hmarks
    exact hw.marks (List.mem_cons_self ..) hmarks
  · intro g₁ g₂ w l k _ hw hmarks hk
    obtain ⟨m, hm, _⟩ := hmarks.alerts_true hk
    rw [hm]
    refine ((hw.marks (List.mem_cons_self ..) hmarks).resume hk hm).mono ?_
    simp only [List.mem_cons, Option.getD_some]
    tauto

end Body.Tracks

/-! ## Runs

Every move of the machine keeps the invariant, so it holds whenever a `new` is about to be executed;
and there the path has come to the end of its line. -/

/-- A label is right before one position only. -/
theorem JoinGraph.Built.eq_of_siteBefore? {code : Code} {g : JoinGraph} {p q : Nat} {l : Label}
    (hbuilt : g.Built code) (hp : code.siteBefore? p = some l) (hq : code.siteBefore? q = some l) :
    q = p := by
  obtain ⟨r, rfl, hr⟩ := Code.node_of_siteBefore? hp
  obtain ⟨r', rfl, hr'⟩ := Code.node_of_siteBefore? hq
  have hposition := (hbuilt.placed l r).mpr hr
  rw [(hbuilt.placed l r').mpr hr'] at hposition
  cases hposition
  rfl

namespace Machine

/-- The paths of a machine, with the one being followed first. -/
def live (m : Machine) : List (Nat × Frame) := m.path.toList ++ m.work

variable {body : Body} {m m' : Machine} {p q n : Nat} {s : Label} {f : Frame}

theorem live_of_path (h : m.path = some (q, f)) : m.live = (q, f) :: m.work := by
  rw [live, h]
  rfl

/-- Every move keeps track of the values of a site. -/
theorem Moves.tracks (hsite : body.code.siteBefore? p = some s)
    (h : body.Tracks p s m.graph m.live) (hmove : m.Moves body m') :
    body.Tracks p s m'.graph m'.live := by
  have hclosed := VType.closed_apart s body.method.className
  cases hmove with
  | take q f work hpath hwork =>
    rw [live, hpath, hwork] at h
    exact h
  | enter j f hpath hwork hmem hpending hmerged =>
    have hj := h.built.join?_of_mem hmem
    have hentered := h.withPending hj false
    have hk := JoinGraph.join?_setJoin_self hj (JoinPoint.withPending_label j false)
    refine (hentered.resume hk hmerged).mono fun x hx => ?_
    rw [live, hpath]
    exact hx
  | label q f l hpath hnode hjoin =>
    rw [live_of_path hpath] at h
    refine h.advance (fun l' hl' => ?_) fun _ hf => hf
    cases hnode.symm.trans hl'
    exact hjoin
  | frame q f r hpath hnode =>
    rw [live_of_path hpath] at h
    refine h.advance (fun l hl => ?_) fun _ hf => hf
    cases hnode.symm.trans hl
  | halt q f l g hpath hnode hjoin hmark =>
    rw [live_of_path hpath] at h
    exact (h.marks (List.mem_cons_self ..) hmark).mono fun x hx => List.mem_cons_of_mem _ hx
  | join q f l g k merged hpath hnode hjoin hmark hk hmerged =>
    rw [live_of_path hpath] at h
    have hmarked := h.marks (List.mem_cons_self ..) hmark
    -- the path leaves its own frame behind for the merged one
    rw [← hmarked.built.position_of_node hnode hk]
    refine (hmarked.resume hk hmerged).mono fun x hx => ?_
    rcases List.mem_cons.mp hx with rfl | hx
    · exact List.mem_cons_self ..
    · exact List.mem_cons_of_mem _ (List.mem_cons_of_mem _ hx)
  | insn q f i g f' hpath hnode hfeed hexec =>
    rw [live_of_path hpath] at h
    refine (h.feed (List.mem_cons_self ..) hfeed).advance (fun l hl => ?_) fun hne hf => ?_
    · cases hnode.symm.trans hl
    · -- only the `new` right behind the label makes values of its site
      refine Frame.Holds.perform hclosed.top
        (hclosed.instruction (fun _ _ => VType.apart_of_eq_none rfl) fun c l _ hl => ?_) hf hexec
      intro heq
      cases heq
      exact hne (h.built.eq_of_siteBefore? hsite hl)
  | branch q f b g g' f' work hpath hnode hfeed hexec hmark =>
    rw [live_of_path hpath] at h
    have hpassed : body.Tracks p s g ((q + 1, f') :: m.work) :=
      (h.feed (List.mem_cons_self ..) hfeed).advance (fun l hl => by cases hnode.symm.trans hl)
        fun _ hf => Frame.Holds.perform hclosed.top (b.supplies _ _) hf hexec
    have hmarked := hpassed.markTargets hmark
    cases b.fallsThrough with
    | true => exact hmarked
    | false => exact hmarked.mono fun x hx => List.mem_cons_of_mem _ hx

/-- What a machine does that gets on from an instruction. -/
theorem Moves.of_insn {i : Instruction} (hmove : m.Moves body m') (hpath : m.path = some (p, f))
    (hnode : body.code.nodes[p]? = some (.insn i)) :
    ∃ f', f.execute body.method.className (body.code.siteBefore? p) i = .ok f'
      ∧ m'.path = some (p + 1, f') := by
  cases hmove with
  | take _ _ _ hpath' _ => cases hpath.symm.trans hpath'
  | enter _ _ hpath' _ _ _ _ => cases hpath.symm.trans hpath'
  | insn q k i' g f' hpath' hnode' hfeed hexec =>
    cases hpath.symm.trans hpath'
    cases hnode.symm.trans hnode'
    exact ⟨f', hexec, rfl⟩
  | label _ _ _ hpath' hnode' _ | frame _ _ _ hpath' hnode' | halt _ _ _ _ hpath' hnode' _ _
  | join _ _ _ _ _ _ hpath' hnode' _ _ _ _ | branch _ _ _ _ _ _ _ hpath' hnode' _ _ _ =>
    cases hpath.symm.trans hpath'
    cases hnode.symm.trans hnode'

end Machine

namespace Frame

/-- The values under construction that were made at a site, in locals and stack. -/
def madeAt (f : Frame) (s : Label) : List VType :=
  (f.locals.toList ++ f.stack).filter fun v => v.site? = some s

variable {f : Frame} {s : Label}

/-- A value pushed on a frame that was free of its site is the only one of it. -/
theorem madeAt_push (h : f.Holds (VType.Apart s)) (c : ClassName) :
    (f.push (.allocated c s)).madeAt s = [.allocated c s] := by
  have hnone : ∀ {values : List VType}, (∀ v ∈ values, v.Apart s) →
      values.filter (fun v => v.site? = some s) = [] := by
    intro values hvalues
    rw [List.filter_eq_nil_iff]
    intro v hv
    rw [decide_eq_true_eq]
    exact hvalues v hv
  have hmade : (VType.allocated c s).site? = some s := rfl
  simp only [madeAt, push, List.filter_append, List.filter_cons, hmade, hnone h.1, hnone h.2,
    decide_true, if_true, List.nil_append]

/-- A constructor changes nothing in a frame without the value it runs on. -/
theorem construct_eq_self {v : VType} {this : ClassName} (h : f.Holds (· ≠ v)) :
    f.construct v this = f := by
  have hsame : ∀ {values : List VType}, (∀ w ∈ values, w ≠ v) →
      values.map (fun w => if w = v then v.constructed this else w) = values := by
    intro values hvalues
    conv_rhs => rw [← List.map_id values]
    exact List.map_congr_left fun w hw => if_neg (hvalues w hw)
  rw [construct, map, WordSeq.map, hsame h.1, hsame h.2, WordSeq.ofList_toList]

end Frame

namespace Analysis

variable {oracle : Oracle} {settings : Settings} {method : Method} {code : Code}
variable {ranges : List ProtectedRange} {graph : JoinGraph} {m m' : Machine} {n p : Nat}
variable {f : Frame} {c : ClassName} {s : Label}

/-- Each time a `new` is executed in a run, the object it makes is the only one of its site in the
frame, and a constructor that runs on it leaves all older values as they are; unless, at the last
join label before the `new`, an arriving object of the site has met an initialized one of its class
in the merged frame, and was kept. -/
theorem allocation_alone_at_its_site (hrec : settings.recovery = none)
    (hbuild : JoinGraph.build oracle (prepare settings code) ranges = .ok graph)
    (hafter : (Machine.start (bodyOf oracle settings method code) graph).after
      (bodyOf oracle settings method code) n = some m)
    (hpath : m.path = some (p, f))
    (hnode : (prepare settings code).nodes[p]? = some (.insn (.new c)))
    (hsite : (prepare settings code).siteBefore? p = some s)
    (hnone : m.graph.Unrevived (prepare settings code) oracle p s)
    (hstep : m.step (bodyOf oracle settings method code) = .running m') :
    ∃ f', m'.path = some (p + 1, f')
      ∧ f'.locals = f.locals ∧ f'.stack = .allocated c s :: f.stack
      ∧ f'.madeAt s = [.allocated c s]
      ∧ f.construct (.allocated c s) method.className = f := by
  obtain ⟨hbuilt, hfresh⟩ := JoinGraph.built_of_build hbuild
  let body := bodyOf oracle settings method code
  have htracks : body.Tracks p s m.graph m.live :=
    Machine.after_invariant hrec (fun _ _ h hmove => hmove.tracks hsite h) hafter
      (.start hbuilt hfresh p s)
  have hmem : (p, f) ∈ m.live := by
    rw [Machine.live_of_path hpath]
    exact List.mem_cons_self ..
  -- the frame that the `new` is executed on is at the end of the line
  have hapart := (htracks.parts hnone).paths _ hmem (Or.inl (.refl _ _ p))
  obtain ⟨f', hexec, hpath'⟩ := (Machine.moves_of_step hrec hstep).of_insn hpath hnode
  have hpush : f' = f.push (.allocated c s) := by
    rw [show body.code.siteBefore? p = some s from hsite] at hexec
    cases hexec
    rfl
  subst hpush
  refine ⟨_, hpath', rfl, rfl, Frame.madeAt_push hapart c, Frame.construct_eq_self ?_⟩
  have hne : ∀ v : VType, v.Apart s → v ≠ .allocated c s :=
    fun v hv heq => VType.not_apart_iff.mpr ⟨c, heq⟩ hv
  exact ⟨fun v hv => hne v (hapart.1 v hv), fun v hv => hne v (hapart.2 v hv)⟩

end Analysis

/-! ## A loop around an allocation

The string that a round makes is not there any more in the next one if it was stored over an `int`,
but it is if it was stored over a string. -/

namespace Reallocation

/-- A static method with one parameter. -/
def method (t : FieldType) : Method := ⟨.object, .init, ⟨[t], none⟩, .of [.STATIC]⟩

/-- Each round makes a string and stores it over the parameter, without running its constructor. -/
def code : Code where
  nodes := #[
    .label ⟨0⟩,
    .insn (.new .string),
    .insn (.store .reference 0),
    .branch (.goto ⟨0⟩)]
  nextLabel := 1

def body (t : FieldType) : Body :=
  Analysis.bodyOf Hierarchy.javaLang.common .plain (method t) code

/-- Where an `int` was, no string is revived. -/
theorem not_revived (oracle : Oracle) (s : Label) :
    ¬ Revived oracle s [⟨[.allocated .string ⟨0⟩], []⟩, ⟨[.integer], []⟩] := by
  intro h
  cases h with
  | met spot c _ _ hmerged _ =>
    cases spot with
    | word n => cases n <;> cases hmerged
    | operand n => cases hmerged
  | earlier _ _ h =>
    cases h with
    | met _ _ _ _ hmerged _ => cases hmerged
    | earlier _ _ h => cases h

/-- The second round over an `int`. -/
theorem round_over_int :
    ∃ graph m m' f,
      JoinGraph.build Hierarchy.javaLang.common (Analysis.prepare .plain code) [] = .ok graph
      ∧ (Machine.start (body (.base .int)) graph).after (body (.base .int)) 6 = some m
      ∧ m.path = some (1, f) ∧ m.step (body (.base .int)) = .running m'
      ∧ ∀ j ∈ m.graph.joins, j.seen = [⟨[.allocated .string ⟨0⟩], []⟩, ⟨[.integer], []⟩] := by
  refine ⟨_, _, _, _, rfl, rfl, rfl, rfl, fun j hj => ?_⟩
  rw [List.mem_singleton.mp hj]
  rfl

end Reallocation

namespace Analysis

/-- In the second round over an `int`, the string of the first one is gone. -/
theorem allocation_alone_at_its_site_over_int :
    ∃ graph m m' f,
      JoinGraph.build Hierarchy.javaLang.common (prepare .plain Reallocation.code) [] = .ok graph
      ∧ (Machine.start (Reallocation.body (.base .int)) graph).after
          (Reallocation.body (.base .int)) 6 = some m
      ∧ m.path = some (1, f)
      ∧ (prepare .plain Reallocation.code).nodes[1]? = some (.insn (.new .string))
      ∧ (prepare .plain Reallocation.code).siteBefore? 1 = some ⟨0⟩
      ∧ m.graph.Unrevived (prepare .plain Reallocation.code) Hierarchy.javaLang.common 1 ⟨0⟩
      ∧ m.step (Reallocation.body (.base .int)) = .running m'
      ∧ ∃ f', m'.path = some (2, f')
        ∧ f'.locals = f.locals ∧ f'.stack = .allocated .string ⟨0⟩ :: f.stack
        ∧ f'.madeAt ⟨0⟩ = [.allocated .string ⟨0⟩]
        ∧ f.construct (.allocated .string ⟨0⟩) .object = f := by
  obtain ⟨graph, m, m', f, hbuild, hafter, hpath, hstep, hseen⟩ := Reallocation.round_over_int
  have hnone : m.graph.Unrevived (prepare .plain Reallocation.code) Hierarchy.javaLang.common 1
      ⟨0⟩ := by
    intro l j hj _
    rw [hseen j (JoinGraph.mem_of_join? hj)]
    exact Reallocation.not_revived _ _
  exact ⟨graph, m, m', f, hbuild, hafter, hpath, rfl, rfl, hnone, hstep,
    allocation_alone_at_its_site rfl hbuild hafter hpath rfl rfl hnone hstep⟩

/-- In the second round over a string, the string of the first one has replaced it in the merged
frame. The frame cannot tell it from the new one, and a constructor that runs on the new one changes
it. -/
theorem allocation_meets_older_object :
    ∃ graph m m' f f', Hierarchy.javaLang.WellFormed
      ∧ JoinGraph.build Hierarchy.javaLang.common (prepare .plain Reallocation.code) [] = .ok graph
      ∧ (Machine.start (Reallocation.body (.ref (.object .string))) graph).after
          (Reallocation.body (.ref (.object .string))) 6 = some m
      ∧ m.path = some (1, f)
      ∧ (prepare .plain Reallocation.code).nodes[1]? = some (.insn (.new .string))
      ∧ (prepare .plain Reallocation.code).siteBefore? 1 = some ⟨0⟩
      ∧ m.step (Reallocation.body (.ref (.object .string))) = .running m'
      ∧ m'.path = some (2, f')
      ∧ f'.madeAt ⟨0⟩ = [.allocated .string ⟨0⟩, .allocated .string ⟨0⟩]
      ∧ f.construct (.allocated .string ⟨0⟩) .object ≠ f :=
  ⟨_, _, _, _, _, Hierarchy.wellFormed_javaLang, rfl, rfl, rfl, rfl, rfl, rfl, rfl, rfl, by decide⟩

end Analysis

end JvmFrames
