import JvmFrames.Proofs.Soundness

/-!
# Merged frames as least upper bounds

What a join point has merged depends on which frames it has seen and not on their order. Its merged
frame is the least one that all of them may be assigned to (`JoinPoint.Supremum`), as long as no
allocation is among them, and frames that may be assigned to each other have one snapshot
(`Frame.Assignable.snapshot_eq`). For the latter the oracle must not take two different types for
each other (`Oracle.Antisymm`).
-/

namespace JvmFrames

/-- No two types go for each other. -/
def Oracle.Antisymm (oracle : Oracle) : Prop :=
  ∀ a b, oracle a b = b → oracle b a = a → a = b

theorem Hierarchy.WellFormed.antisymm {h : Hierarchy} (hwf : h.WellFormed) :
    Oracle.Antisymm h.common := by
  intro a b hab hba
  rw [hwf.rooted.common_eq_right_iff] at hab hba
  exact hwf.rooted.subType_antisymm hab hba

namespace Oracle.Lawful

variable {oracle : Oracle} (hlaw : Oracle.Lawful oracle) (hanti : Oracle.Antisymm oracle)

include hlaw hanti

/-- What two types have in common does not depend on their order. -/
theorem comm (a b : RefType) : oracle a b = oracle b a := by
  have hle : ∀ a b, oracle (oracle a b) (oracle b a) = oracle b a := fun a b =>
    hlaw.least a b _ (hlaw.right b a) (hlaw.left b a)
  exact hanti _ _ (hle a b) (hle b a)

/-- What three types have in common does not depend on which two are taken first. -/
theorem assoc (a b c : RefType) : oracle (oracle a b) c = oracle a (oracle b c) := by
  -- each side is above `a`, `b` and `c`, and so above the other side
  apply hanti
  · refine hlaw.least _ c _ (hlaw.least a b _ (hlaw.left _ _) ?_) ?_
    · exact hlaw.trans _ _ _ (hlaw.left b c) (hlaw.right a _)
    · exact hlaw.trans _ _ _ (hlaw.right b c) (hlaw.right a _)
  · refine hlaw.least a _ _ ?_ (hlaw.least b c _ ?_ (hlaw.right _ _))
    · exact hlaw.trans _ _ _ (hlaw.left a b) (hlaw.left _ c)
    · exact hlaw.trans _ _ _ (hlaw.right a b) (hlaw.left _ c)

end Oracle.Lawful

/-! ## Snapshots

A snapshot drops what is unusable at the end of the locals, and in between the unusable words are
told by the usable ones around them. So snapshots are equal if the usable values are. -/

theorem head?_dropWhile_ne_top {p : VType → Bool} (hp : p .top = true) (values : List VType) :
    (values.dropWhile p).head? ≠ some .top := by
  intro hhead
  have hnot := List.head?_dropWhile_not p values
  rw [hhead] at hnot
  simp [hp] at hnot

theorem getLast?_trim_ne_top (values : List VType) :
    (Snapshot.trim values).getLast? ≠ some .top := by
  rw [Snapshot.trim, List.getLast?_reverse]
  exact head?_dropWhile_ne_top rfl values.reverse

theorem usableAt_cons_zero_iff {v x : VType} {rest : List VType} :
    UsableAt (v :: rest) 0 x ↔ x = v ∧ v ≠ .top := by
  unfold UsableAt
  rw [valueAt?, if_pos rfl, Option.some.injEq]
  constructor
  · rintro ⟨rfl, hne⟩
    exact ⟨rfl, hne⟩
  · rintro ⟨rfl, hne⟩
    exact ⟨rfl, hne⟩

theorem usableAt_cons_add_iff {v x : VType} {rest : List VType} {n : Nat} :
    UsableAt (v :: rest) (width v + n) x ↔ UsableAt rest n x := by
  have hpos := width_pos v
  unfold UsableAt
  rw [valueAt?, if_neg (by omega), if_neg (by omega), Nat.add_sub_cancel_left]

/-- Lists that do not end in `top` are told apart by their usable values. -/
theorem eq_of_usableAt_iff {a b : List VType} (ha : a.getLast? ≠ some .top)
    (hb : b.getLast? ≠ some .top) (h : ∀ n v, UsableAt a n v ↔ UsableAt b n v) : a = b := by
  -- the last value of a list is usable, so an empty list has no usable value only if alone
  have hlast : ∀ {c : List VType}, c.getLast? ≠ some .top → c ≠ [] → ∃ n v, UsableAt c n v := by
    intro c hc hne
    obtain ⟨init, v, rfl⟩ := (List.eq_nil_or_concat c).resolve_left hne
    have hv : v ≠ .top := fun htop => hc (by simp [htop])
    exact ⟨wordCount init, v, valueAt?_eq_some_iff.mpr ⟨init.length, by simp, by simp⟩, hv⟩
  induction a generalizing b with
  | nil =>
    by_contra hne
    obtain ⟨n, v, hv⟩ := hlast hb (fun heq => hne heq.symm)
    have hnil := (h n v).mpr hv
    cases hnil.1
  | cons v a ih =>
    cases b with
    | nil =>
      obtain ⟨n, x, hx⟩ := hlast ha (List.cons_ne_nil v a)
      have hnil := (h n x).mp hx
      cases hnil.1
    | cons w b =>
      have hhead : v = w := by
        by_cases hv : v = .top
        · by_contra hne
          have hw : w ≠ .top := fun htop => hne (hv.trans htop.symm)
          have hx := (h 0 w).mpr (usableAt_cons_zero_iff.mpr ⟨rfl, hw⟩)
          exact hne (usableAt_cons_zero_iff.mp hx).1.symm
        · exact (usableAt_cons_zero_iff.mp ((h 0 v).mp (usableAt_cons_zero_iff.mpr ⟨rfl, hv⟩))).1
      subst hhead
      have htail : ∀ {c : List VType}, (v :: c).getLast? ≠ some .top → c.getLast? ≠ some .top := by
        intro c hc hlast
        rw [List.getLast?_cons, hlast] at hc
        exact hc rfl
      have hrest : ∀ n x, UsableAt a n x ↔ UsableAt b n x := fun n x => by
        rw [← usableAt_cons_add_iff (v := v), h, usableAt_cons_add_iff]
      rw [ih (htail ha) (htail hb) hrest]

/-- Locals have one snapshot if they have the same usable values. -/
theorem trim_eq_trim_iff {a b : List VType} :
    Snapshot.trim a = Snapshot.trim b ↔ ∀ n v, UsableAt a n v ↔ UsableAt b n v := by
  constructor
  · intro heq n v
    rw [← usableAt_trim_iff, heq, usableAt_trim_iff]
  · intro h
    refine eq_of_usableAt_iff (getLast?_trim_ne_top a) (getLast?_trim_ne_top b) fun n v => ?_
    rw [usableAt_trim_iff, usableAt_trim_iff]
    exact h n v

/-- A snapshot is the stack and the usable locals. -/
theorem Frame.snapshot_eq_iff {f g : Frame} :
    f.snapshot = g.snapshot ↔ f.stack = g.stack
      ∧ ∀ n v, UsableAt f.locals.toList n v ↔ UsableAt g.locals.toList n v := by
  rw [← trim_eq_trim_iff, snapshot, snapshot, Snapshot.ofValues, Snapshot.ofValues,
    Snapshot.mk.injEq, List.reverse_inj, and_comm]

/-! ## Assignability both ways

Assignability is an order on snapshots, though not on frames. -/

/-- Values that may be assigned to each other are equal. -/
theorem VType.Assignable.antisymm {oracle : Oracle} {v w : VType} (hanti : Oracle.Antisymm oracle)
    (hvw : v.Assignable oracle w) (hwv : w.Assignable oracle v) : v = w := by
  cases hvw with
  | refl => rfl
  | top => exact hwv.eq_top
  | null t => cases hwv
  | object a b hab =>
    cases hwv with
    | refl => rfl
    | object _ _ hba => rw [hanti a b hab hba]

/-- Stacks that may stand for each other are equal. -/
theorem VType.eq_of_replaces {oracle : Oracle} {a b : List VType} (hanti : Oracle.Antisymm oracle)
    (hab : List.Forall₂ (VType.Replaces oracle) a b)
    (hba : List.Forall₂ (VType.Replaces oracle) b a) : a = b := by
  induction hab with
  | nil => rfl
  | cons hvw _ ih =>
    cases hba with
    | cons hwv hrest => rw [hvw.2.antisymm hanti hwv.2, ih hrest]

/-- Frames that may be assigned to each other have one snapshot. -/
theorem Frame.Assignable.snapshot_eq {oracle : Oracle} {f g : Frame}
    (hanti : Oracle.Antisymm oracle) (hfg : f.Assignable oracle g) (hgf : g.Assignable oracle f) :
    f.snapshot = g.snapshot := by
  have hlocals : ∀ {f g : Frame}, f.Assignable oracle g → g.Assignable oracle f →
      ∀ n v, UsableAt f.locals.toList n v → UsableAt g.locals.toList n v := by
    intro f g hfg hgf n v hv
    obtain ⟨w, hw, hwv⟩ := hgf.locals n v hv
    obtain ⟨v', hv', hvw⟩ := hfg.locals n w hw
    -- both values of `f` are at one word, and so are the same
    have heq : v' = v := Option.some.inj (hv'.1.symm.trans hv.1)
    rw [heq] at hvw
    rw [hvw.antisymm hanti hwv]
    exact hw
  exact snapshot_eq_iff.mpr ⟨VType.eq_of_replaces hanti hfg.stack hgf.stack,
    fun n v => ⟨hlocals hfg hgf n v, hlocals hgf hfg n v⟩⟩

/-! ## Slots

Another way to say what merging does to locals: at each word by itself, with `top` where nothing
usable starts. A merge of several frames is a fold over what they have at the word. -/

/-- What starts at a word of some locals; `top` where nothing usable does. -/
def slotAt (values : List VType) (n : Nat) : VType := (valueAt? values n).getD .top

/-- What two lists of locals have at a word, merged: values of different width have nothing in
common. -/
def mergeSlot (oracle : Oracle) (v w : VType) : VType :=
  if width v = width w then v.merge oracle w else .top

/-- What several lists of locals have at a word, merged one after the other. -/
def slotMerge (oracle : Oracle) (n : Nat) : List (List VType) → VType
  | [] => .top
  | first :: rest =>
    rest.foldl (fun v values => mergeSlot oracle v (slotAt values n)) (slotAt first n)

section

variable {oracle : Oracle} {a b values : List VType} {n : Nat}

/-- A slot has what is usable at its word. -/
theorem usableAt_iff_slotAt {v : VType} : UsableAt values n v ↔ slotAt values n = v ∧ v ≠ .top := by
  unfold UsableAt slotAt
  cases valueAt? values n with
  | none =>
    rw [Option.getD_none]
    constructor
    · rintro ⟨hv, _⟩
      cases hv
    · rintro ⟨hv, hne⟩
      exact absurd hv.symm hne
  | some w => rw [Option.getD_some, Option.some.injEq]

/-- Slots are equal if the same is usable at their word. -/
theorem slotAt_eq_of_usableAt_iff (h : ∀ v, UsableAt a n v ↔ UsableAt b n v) :
    slotAt a n = slotAt b n := by
  by_cases ha : slotAt a n = .top
  · by_contra hne
    have hb : slotAt b n ≠ .top := fun hb => hne (ha.trans hb.symm)
    exact hne (usableAt_iff_slotAt.mp ((h _).mpr (usableAt_iff_slotAt.mpr ⟨rfl, hb⟩))).1
  · exact (usableAt_iff_slotAt.mp ((h _).mp (usableAt_iff_slotAt.mpr ⟨rfl, ha⟩))).1.symm

/-- Locals are merged slot by slot. -/
theorem slotAt_mergeLocals : slotAt (mergeLocals oracle a b) n
    = mergeSlot oracle (slotAt a n) (slotAt b n) := by
  have hmerge : ∀ x, UsableAt (mergeLocals oracle a b) n x
      ↔ mergeSlot oracle (slotAt a n) (slotAt b n) = x ∧ x ≠ .top := by
    intro x
    rw [usableAt_mergeLocals_iff]
    unfold mergeSlot slotAt
    cases ha : valueAt? a n with
    | none =>
      -- `top` absorbs whatever it meets
      have htop : ∀ w : VType, (if width (.top : VType) = width w then VType.merge oracle .top w
          else .top) = .top := fun w => by split <;> rfl
      simp [htop, eq_comm]
    | some v =>
      cases hb : valueAt? b n with
      | none =>
        have htop : (if width v = width (.top : VType) then v.merge oracle .top else .top)
            = .top := by
          split
          · cases v <;> rfl
          · rfl
        simp [htop, eq_comm]
      | some w =>
        by_cases hwidth : width v = width w
        · simp [hwidth]
        · simp [hwidth, eq_comm]
  by_cases htop : mergeSlot oracle (slotAt a n) (slotAt b n) = .top
  · by_contra hne
    have husable : UsableAt (mergeLocals oracle a b) n (slotAt (mergeLocals oracle a b) n) :=
      usableAt_iff_slotAt.mpr ⟨rfl, fun h => hne (h.trans htop.symm)⟩
    exact hne ((hmerge _).mp husable).1.symm
  · exact (usableAt_iff_slotAt.mp ((hmerge _).mpr ⟨rfl, htop⟩)).1

end

theorem Frame.slotAt_merge {oracle : Oracle} {f g m : Frame} (h : f.merge oracle g = .ok m)
    (n : Nat) : slotAt m.locals.toList n
      = mergeSlot oracle (slotAt f.locals.toList n) (slotAt g.locals.toList n) := by
  obtain ⟨_, rfl⟩ := merge_eq_ok_iff.mp h
  rw [WordSeq.toList_ofList, slotAt_mergeLocals]

/-- Frames with a bound have a least one, and its locals are merged slot by slot. -/
theorem Frame.exists_supremum {oracle : Oracle} (hlaw : Oracle.Lawful oracle) {bound : Frame}
    (rest : List Frame) (f : Frame) (hsettled : ∀ x ∈ f :: rest, x.Holds VType.Settled)
    (hbound : ∀ x ∈ f :: rest, x.Assignable oracle bound) :
    ∃ m : Frame, (∀ x ∈ f :: rest, x.Assignable oracle m)
      ∧ (∀ b, (∀ x ∈ f :: rest, x.Assignable oracle b) → m.Assignable oracle b)
      ∧ ∀ n, slotAt m.locals.toList n
          = slotMerge oracle n ((f :: rest).map (·.locals.toList)) := by
  induction rest generalizing f with
  | nil =>
    refine ⟨f, fun x hx => ?_, fun b hb => hb f (List.mem_cons_self ..), fun n => rfl⟩
    rw [List.mem_singleton.mp hx]
    exact .refl f
  | cons g rest ih =>
    have hf : f ∈ f :: g :: rest := List.mem_cons_self ..
    have hg : g ∈ f :: g :: rest := List.mem_cons_of_mem _ (List.mem_cons_self ..)
    have hrest : ∀ x ∈ rest, x ∈ f :: g :: rest := fun x hx =>
      List.mem_cons_of_mem _ (List.mem_cons_of_mem _ hx)
    -- the first two merge, and take part as one
    obtain ⟨k, hk, hkbound⟩ := (hbound f hf).exists_merge hlaw (hbound g hg)
    obtain ⟨hfk, hgk⟩ := assignable_of_merge hlaw (hsettled f hf) (hsettled g hg) hk
    have hkSettled : k.Holds VType.Settled :=
      .merge nofun (fun _ _ => VType.Settled.merge oracle) (hsettled f hf) (hsettled g hg) hk
    obtain ⟨m, habove, hleast, hslots⟩ := ih k
      (List.forall_mem_cons.mpr ⟨hkSettled, fun x hx => hsettled x (hrest x hx)⟩)
      (List.forall_mem_cons.mpr ⟨hkbound, fun x hx => hbound x (hrest x hx)⟩)
    obtain ⟨hkm, hrestm⟩ := List.forall_mem_cons.mp habove
    refine ⟨m, ?_, fun b hb => ?_, fun n => ?_⟩
    · exact List.forall_mem_cons.mpr ⟨hfk.trans hlaw hkm,
        List.forall_mem_cons.mpr ⟨hgk.trans hlaw hkm, hrestm⟩⟩
    · obtain ⟨k', hk', hkb⟩ := (hb f hf).exists_merge hlaw (hb g hg)
      rw [hk] at hk'
      cases hk'
      exact hleast b (List.forall_mem_cons.mpr ⟨hkb, fun x hx => hb x (hrest x hx)⟩)
    · rw [hslots, List.map_cons, List.map_cons, List.map_cons, slotMerge, slotMerge,
        List.foldl_cons, slotAt_merge hk]

/-! ## The merged frame of a join point

Each arrival is merged into what is there, which gives the least frame above both. By induction over
the arrivals the result is the least frame above all of them. -/

namespace JoinPoint

variable {oracle : Oracle} {j k : JoinPoint} {f : Frame}

/-- The merged frame is the least one that every frame seen may be assigned to. -/
structure Supremum (oracle : Oracle) (j : JoinPoint) : Prop where
  settled : ∀ m, j.merged = some m → m.Holds VType.Settled
  reached : ∀ m, j.merged = some m → ∃ f : Frame, f.snapshot ∈ j.seen
  bounds : j.Bounds oracle
  least : ∀ m, j.merged = some m → ∀ h : Frame,
    (∀ f : Frame, f.snapshot ∈ j.seen → f.Assignable oracle h) → m.Assignable oracle h

namespace Supremum

theorem of_unreached (hmerged : j.merged = none) (hseen : j.seen = []) : j.Supremum oracle where
  settled := fun m hm => by rw [hmerged] at hm; cases hm
  reached := fun m hm => by rw [hmerged] at hm; cases hm
  bounds := fun f hf => by rw [hseen] at hf; cases hf
  least := fun m hm => by rw [hmerged] at hm; cases hm

/-- A reception keeps the merged frame least. -/
theorem receives (hlaw : Oracle.Lawful oracle) (hj : j.Supremum oracle)
    (hf : f.Holds VType.Settled) (hk : j.Receives oracle f k) : k.Supremum oracle where
  settled := fun m hm => by
    cases hk with
    | first _ _ => cases hm; exact hf
    | joined current m' _ hcurrent hmerge =>
      cases hm
      exact .merge nofun (fun _ _ => VType.Settled.merge oracle) (hj.settled current hcurrent) hf
        hmerge
  reached := fun _ _ => ⟨f, by rw [hk.seen]; exact List.mem_cons_self ..⟩
  bounds := hj.bounds.receives hlaw hj.settled hf hk
  least := fun m hm h hbound => by
    rw [hk.seen] at hbound
    have hfh := hbound f (List.mem_cons_self ..)
    cases hk with
    | first _ _ => cases hm; exact hfh
    | joined current m' _ hcurrent hmerge =>
      cases hm
      -- what bounds all frames bounds the earlier ones, so it bounds what they were merged to
      have hcurrentBelow := hj.least current hcurrent h fun f' hf' =>
        hbound f' (List.mem_cons_of_mem _ hf')
      obtain ⟨m₁, hm₁, hbelow⟩ := hcurrentBelow.exists_merge hlaw hfh
      rw [hmerge] at hm₁
      cases hm₁
      exact hbelow

/-- Which frames have been seen decides what has been merged. -/
theorem snapshot_eq (hanti : Oracle.Antisymm oracle) (hj : j.Supremum oracle)
    (hk : k.Supremum oracle) (hseen : ∀ s, s ∈ j.seen ↔ s ∈ k.seen) :
    j.merged.map Frame.snapshot = k.merged.map Frame.snapshot := by
  have hreached : ∀ {i i' : JoinPoint}, i.Supremum oracle → i'.Supremum oracle →
      (∀ s, s ∈ i.seen ↔ s ∈ i'.seen) → ∀ m, i.merged = some m →
        ∃ m', i'.merged = some m' ∧ m.Assignable oracle m' := by
    intro i i' hi hi' hseen m hm
    obtain ⟨f, hf⟩ := hi.reached m hm
    obtain ⟨m', hm', _⟩ := hi'.bounds f ((hseen _).mp hf)
    refine ⟨m', hm', hi.least m hm m' fun f hf => ?_⟩
    obtain ⟨m'', hm'', hbelow⟩ := hi'.bounds f ((hseen _).mp hf)
    rw [hm'] at hm''
    cases hm''
    exact hbelow
  -- each of the merged frames may be assigned to the other
  cases hm : j.merged with
  | none =>
    cases hm' : k.merged with
    | none => rfl
    | some m' =>
      obtain ⟨m, hsome, _⟩ := hreached hk hj (fun s => (hseen s).symm) m' hm'
      rw [hm] at hsome
      cases hsome
  | some m =>
    obtain ⟨m', hm', hle⟩ := hreached hj hk hseen m hm
    obtain ⟨m'', hm'', hge⟩ := hreached hk hj (fun s => (hseen s).symm) m' hm'
    rw [hm] at hm''
    cases hm''
    rw [hm', Option.map_some, Option.map_some, hle.snapshot_eq hanti hge]

/-- A frame is not refused where it and everything seen have a common bound. -/
theorem exists_merge (hlaw : Oracle.Lawful oracle) (hj : j.Supremum oracle) {current bound : Frame}
    (hcurrent : j.merged = some current)
    (hseen : ∀ f' : Frame, f'.snapshot ∈ j.seen → f'.Assignable oracle bound)
    (hf : f.Assignable oracle bound) : ∃ m, current.merge oracle f = .ok m := by
  obtain ⟨m, hm, _⟩ := (hj.least current hcurrent bound hseen).exists_merge hlaw hf
  exact ⟨m, hm⟩

/-- Where every frame seen has one and the same stack, so has the merged frame. -/
theorem stack_merged (hanti : Oracle.Antisymm oracle) (hj : j.Supremum oracle) {m : Frame}
    (hm : j.merged = some m) {stack : List VType}
    (hstack : ∀ f : Frame, f.snapshot ∈ j.seen → f.stack = stack) : m.stack = stack := by
  obtain ⟨f, hf⟩ := hj.reached m hm
  obtain ⟨m', hm', hfm⟩ := hj.bounds f hf
  rw [hm] at hm'
  cases hm'
  have hmf : m.Assignable oracle ⟨.empty, stack⟩ := hj.least m hm _ fun f' hf' => by
    refine ⟨?_, fun n w hw => by cases hw.1⟩
    rw [hstack f' hf']
    exact List.forall₂_same.mpr fun v _ => ⟨rfl, .refl v⟩
  have hfm' := hfm.stack
  rw [hstack f hf] at hfm'
  exact VType.eq_of_replaces hanti hmf.stack hfm'

/-- The locals of the merged frame are the locals of some frames merged slot by slot, if they and
the frames seen have the same bounds. -/
theorem slotAt_merged (frames : List Frame) (hlaw : Oracle.Lawful oracle)
    (hanti : Oracle.Antisymm oracle) (hj : j.Supremum oracle) {m : Frame} (hm : j.merged = some m)
    (hne : frames ≠ []) (hsettled : ∀ x ∈ frames, x.Holds VType.Settled)
    (habove : ∀ x ∈ frames, x.Assignable oracle m)
    (hseen : ∀ b, (∀ x ∈ frames, x.Assignable oracle b) →
      ∀ f : Frame, f.snapshot ∈ j.seen → f.Assignable oracle b) (n : Nat) :
    slotAt m.locals.toList n = slotMerge oracle n (frames.map (·.locals.toList)) := by
  obtain ⟨first, rest, rfl⟩ := List.exists_cons_of_ne_nil hne
  obtain ⟨k, hk, hleast, hslots⟩ := Frame.exists_supremum hlaw rest first hsettled habove
  have heq : m.snapshot = k.snapshot :=
    (hj.least m hm k (hseen k hk)).snapshot_eq hanti (hleast m habove)
  rw [slotAt_eq_of_usableAt_iff ((Frame.snapshot_eq_iff.mp heq).2 n), hslots]

end Supremum

end JoinPoint

end JvmFrames
