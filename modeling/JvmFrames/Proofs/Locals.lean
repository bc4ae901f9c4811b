import JvmFrames.Proofs.LocalUpdate

/-!
# Locals by the word

What storing into locals does to the value that starts at a word. Only usable values count: a word
where `top` starts and a word where nothing starts are the same to everything that reads locals.
After a store there are the stored value and what does not overlap it (`usableAt_store_iff`), so a
load gives the stored value at its slot, and elsewhere what it gave before or nothing
(`Frame.load_after_store`).
-/

namespace JvmFrames

/-- A value other than `top` starts at a word of a list of locals. -/
def UsableAt (values : List VType) (n : Nat) (v : VType) : Prop :=
  valueAt? values n = some v ∧ v ≠ .top

theorem not_usableAt_replicate_top {k n : Nat} {v : VType} :
    ¬ UsableAt (List.replicate k .top) n v := by
  rintro ⟨hv, hne⟩
  exact hne (List.eq_of_mem_replicate (mem_of_valueAt? hv))

/-- A usable value starts in the first list or behind its words in the second. Where a wide value
ends the first list, its second word starts nothing in either. -/
theorem usableAt_append_iff {a b : List VType} {n : Nat} {v : VType} :
    UsableAt (a ++ b) n v
      ↔ UsableAt a n v ∨ (wordCount a ≤ n ∧ UsableAt b (n - wordCount a) v) := by
  unfold UsableAt
  rw [valueAt?_append]
  by_cases hlt : n < wordCount a
  · rw [if_pos hlt]
    have hnot : ¬ wordCount a ≤ n := by omega
    simp [hnot]
  · rw [if_neg hlt]
    have hnone : valueAt? a n ≠ some v := fun h => by
      have hle := add_width_le_of_valueAt? h
      have hpos := width_pos v
      omega
    simp [hnone, Nat.le_of_not_lt hlt]

/-! ## Storing

A store cuts the list at the slot and behind the value. Each cut keeps the usable values that lie on
one side of it and makes unusable what it goes through. -/

namespace Frame

/-- The first words are as many as asked for, since missing ones are made up. -/
@[simp] theorem wordCount_takeWords (values : List VType) (n : Nat) :
    wordCount (takeWords values n) = n := by
  induction values generalizing n with
  | nil => rw [takeWords, wordCount_replicate_top]
  | cons v rest ih =>
    rw [takeWords]
    by_cases hzero : n = 0
    · rw [if_pos hzero, hzero]; rfl
    · by_cases hfits : width v ≤ n
      · rw [if_neg hzero, if_pos hfits, wordCount_cons, ih]
        omega
      · rw [if_neg hzero, if_neg hfits, wordCount_replicate_top]

/-- What is left has the other words, if there are any. -/
@[simp] theorem wordCount_dropWords (values : List VType) (n : Nat) :
    wordCount (dropWords values n) = wordCount values - n := by
  induction values generalizing n with
  | nil => simp [dropWords]
  | cons v rest ih =>
    rw [dropWords]
    by_cases hzero : n = 0
    · rw [if_pos hzero, hzero]; rfl
    · by_cases hfits : width v ≤ n
      · rw [if_neg hzero, if_pos hfits, wordCount_cons, ih]
        omega
      · rw [if_neg hzero, if_neg hfits, wordCount_append, wordCount_replicate_top, wordCount_cons]
        omega

/-- The first words of a list keep the usable values that end there. -/
theorem usableAt_takeWords_iff {values : List VType} {k n : Nat} {v : VType} :
    UsableAt (takeWords values k) n v ↔ UsableAt values n v ∧ n + width v ≤ k := by
  induction values generalizing k n with
  | nil =>
    rw [takeWords]
    constructor
    · intro h; exact absurd h not_usableAt_replicate_top
    · rintro ⟨⟨h, _⟩, _⟩; cases h
  | cons w rest ih =>
    have hpos := width_pos w
    have hposv := width_pos v
    rw [takeWords]
    by_cases hzero : k = 0
    · rw [if_pos hzero]
      constructor
      · rintro ⟨h, _⟩; cases h
      · rintro ⟨_, hle⟩; omega
    · by_cases hfits : width w ≤ k
      · rw [if_neg hzero, if_pos hfits]
        unfold UsableAt at ih ⊢
        rw [valueAt?, valueAt?]
        by_cases hn : n = 0
        · rw [if_pos hn, if_pos hn]
          constructor
          · rintro ⟨hv, hne⟩
            cases hv
            exact ⟨⟨rfl, hne⟩, by omega⟩
          · exact fun h => h.1
        · by_cases hhead : n < width w
          · simp [hn, hhead]
          · rw [if_neg hn, if_neg hhead, if_neg hn, if_neg hhead, ih]
            constructor
            · rintro ⟨h, hle⟩; exact ⟨h, by omega⟩
            · rintro ⟨h, hle⟩; exact ⟨h, by omega⟩
      · -- the cut goes through `w`: nothing usable is left of it, and nothing else starts before
        rw [if_neg hzero, if_neg hfits]
        constructor
        · intro h; exact absurd h not_usableAt_replicate_top
        · rintro ⟨⟨hv, _⟩, hle⟩
          rw [valueAt?] at hv
          by_cases hn : n = 0
          · rw [if_pos hn] at hv
            cases hv
            omega
          · rw [if_neg hn, if_pos (by omega)] at hv
            cases hv

/-- What is left after the first words of a list has the usable values that start there. -/
theorem usableAt_dropWords_iff {values : List VType} {k n : Nat} {v : VType} :
    UsableAt (dropWords values k) n v ↔ UsableAt values (k + n) v := by
  induction values generalizing k n with
  | nil => unfold UsableAt; simp [dropWords, valueAt?]
  | cons w rest ih =>
    have hpos := width_pos w
    rw [dropWords]
    by_cases hzero : k = 0
    · rw [if_pos hzero, hzero, Nat.zero_add]
    · by_cases hfits : width w ≤ k
      · rw [if_neg hzero, if_pos hfits, ih]
        unfold UsableAt
        rw [valueAt?, if_neg (by omega), if_neg (by omega)]
        rw [show k - width w + n = k + n - width w by omega]
      · -- the cut goes through `w`, whose second word is left unusable
        rw [if_neg hzero, if_neg hfits, usableAt_append_iff, wordCount_replicate_top]
        unfold UsableAt
        rw [valueAt?, if_neg (by omega)]
        by_cases hn : width w - k ≤ n
        · rw [if_neg (by omega), show k + n - width w = n - (width w - k) by omega]
          constructor
          · rintro (h | ⟨_, h⟩)
            · exact absurd h not_usableAt_replicate_top
            · exact h
          · exact fun h => Or.inr ⟨hn, h⟩
        · rw [if_pos (by omega)]
          constructor
          · rintro (h | ⟨h, _⟩)
            · exact absurd h not_usableAt_replicate_top
            · exact absurd h hn
          · rintro ⟨h, _⟩; cases h

/-- After a store there are the stored value and the usable values that do not overlap it. -/
theorem usableAt_store_iff {f : Frame} {slot : UInt16} {v w : VType} {n : Nat} :
    UsableAt (f.store slot v).locals.toList n w
      ↔ (n = slot.toNat ∧ w = v ∧ v ≠ .top)
        ∨ (UsableAt f.locals.toList n w
            ∧ (n + width w ≤ slot.toNat ∨ slot.toNat + width v ≤ n)) := by
  have hpos := width_pos v
  have hposw := width_pos w
  have hlist : (f.store slot v).locals.toList
      = takeWords f.locals.toList slot.toNat
        ++ ([v] ++ dropWords f.locals.toList (slot.toNat + width v)) := by
    rw [store, WordSeq.toList_ofList]; rfl
  rw [hlist, usableAt_append_iff, usableAt_append_iff, usableAt_takeWords_iff, wordCount_takeWords,
    usableAt_dropWords_iff]
  have hsingle : UsableAt [v] (n - slot.toNat) w ↔ n - slot.toNat = 0 ∧ w = v ∧ v ≠ .top := by
    unfold UsableAt valueAt?
    by_cases hzero : n - slot.toNat = 0
    · rw [if_pos hzero]
      constructor
      · rintro ⟨h, hne⟩
        cases h
        exact ⟨hzero, rfl, hne⟩
      · rintro ⟨_, rfl, hne⟩
        exact ⟨rfl, hne⟩
    · rw [if_neg hzero]
      constructor
      · rintro ⟨h, _⟩
        split at h <;> cases h
      · rintro ⟨h, _⟩; exact absurd h hzero
  have hword : wordCount [v] = width v := by simp
  rw [hsingle, hword]
  -- a word lies before the slot, at it, or behind the stored value
  constructor
  · rintro (⟨h, hle⟩ | ⟨hle, ⟨heq, hv, hne⟩ | ⟨hafter, h⟩⟩)
    · exact Or.inr ⟨h, Or.inl hle⟩
    · exact Or.inl ⟨by omega, hv, hne⟩
    · rw [show slot.toNat + width v + (n - slot.toNat - width v) = n by omega] at h
      exact Or.inr ⟨h, Or.inr (by omega)⟩
  · rintro (⟨heq, hv, hne⟩ | ⟨h, hle | hafter⟩)
    · exact Or.inr ⟨by omega, Or.inl ⟨by omega, hv, hne⟩⟩
    · exact Or.inl ⟨h, hle⟩
    · refine Or.inr ⟨by omega, Or.inr ⟨by omega, ?_⟩⟩
      rw [show slot.toNat + width v + (n - slot.toNat - width v) = n by omega]
      exact h

/-- A store makes the locals as long as it needs them, and never shorter. -/
theorem words_store (f : Frame) (slot : UInt16) (v : VType) :
    (f.store slot v).locals.words = max f.locals.words (slot.toNat + width v) := by
  rw [store, WordSeq.words_ofList, wordCount_append, wordCount_takeWords, wordCount_cons,
    wordCount_dropWords, ← WordSeq.words_eq_wordCount]
  omega

/-! ## Loading after a store

A load gives the usable value at its slot (`load_eq_ok_iff_usableAt`), so the laws of loads after a
store are read off `usableAt_store_iff`. -/

variable {f g : Frame} {slot s : UInt16} {v w : VType}

/-- A load gives just the usable value that starts at its slot. -/
theorem load_eq_ok_iff_usableAt : f.load s = .ok v ↔ UsableAt f.locals.toList s.toNat v :=
  f.load_eq_ok_iff s v

/-- Loading fails exactly where nothing usable starts. -/
theorem load_eq_error_iff :
    f.load s = .error (.unusableLocal s) ↔ ∀ v, ¬ UsableAt f.locals.toList s.toNat v := by
  constructor
  · intro herror v hv
    rw [load_eq_ok_iff_usableAt.mpr hv] at herror
    cases herror
  · intro hnone
    have hload : ∀ v, f.load s ≠ .ok v := fun v hv => hnone v (load_eq_ok_iff_usableAt.mp hv)
    unfold load at hload ⊢
    split
    · rfl
    · rfl
    · rfl
    next v hv hlookup => simp [hlookup] at hload

/-- Frames with the same usable value at a slot load the same there. -/
theorem load_eq_of_usableAt_iff
    (h : ∀ v, UsableAt f.locals.toList s.toNat v ↔ UsableAt g.locals.toList s.toNat v) :
    f.load s = g.load s := by
  by_cases hsome : ∃ v, UsableAt f.locals.toList s.toNat v
  · obtain ⟨v, hv⟩ := hsome
    rw [load_eq_ok_iff_usableAt.mpr hv, load_eq_ok_iff_usableAt.mpr ((h v).mp hv)]
  · have hnone : ∀ v, ¬ UsableAt f.locals.toList s.toNat v := fun v hv => hsome ⟨v, hv⟩
    rw [load_eq_error_iff.mpr hnone, load_eq_error_iff.mpr fun v hv => hnone v ((h v).mpr hv)]

theorem load_store_self (hv : v ≠ .top) : (f.store slot v).load slot = .ok v :=
  load_eq_ok_iff_usableAt.mpr (usableAt_store_iff.mpr (Or.inl ⟨rfl, rfl, hv⟩))

theorem toNat_ne (h : s ≠ slot) : s.toNat ≠ slot.toNat := fun heq => h (UInt16.toNat_inj.mp heq)

/-- Another local that a store does not touch is kept. -/
theorem load_store_of_apart (hs : s ≠ slot) (hw : f.locals.StartsAt s.toNat w)
    (hapart : s.toNat + width w ≤ slot.toNat ∨ slot.toNat + width v ≤ s.toNat) :
    (f.store slot v).load s = f.load s := by
  refine load_eq_of_usableAt_iff fun u => ?_
  rw [usableAt_store_iff]
  constructor
  · rintro (⟨heq, _⟩ | ⟨hu, _⟩)
    · exact absurd heq (toNat_ne hs)
    · exact hu
  · intro hu
    have heq : u = w := Option.some.inj (hu.1.symm.trans (WordSeq.startsAt_iff.mp hw))
    subst heq
    exact Or.inr ⟨hu, hapart⟩

/-- Where nothing can be loaded before a store, or only what it overwrites, nothing can be loaded
after it. -/
theorem load_store_of_not_apart (hs : s ≠ slot)
    (h : ∀ w, w ≠ .top → f.locals.StartsAt s.toNat w →
      slot.toNat < s.toNat + width w ∧ s.toNat < slot.toNat + width v) :
    (f.store slot v).load s = .error (.unusableLocal s) := by
  rw [load_eq_error_iff]
  intro u hu
  -- a value loaded at another slot was there before, and did not overlap the one stored
  rcases usableAt_store_iff.mp hu with ⟨heq, _⟩ | ⟨hold, hapart⟩
  · exact toNat_ne hs heq
  · have hoverlap := h u hold.2 (WordSeq.startsAt_iff.mpr hold.1)
    omega

/-- Storing and loading. The stored value is there, and if it is wide, nothing is at its second
word; the locals are no longer than needed. Any other local is kept if its words are not among those
stored to; otherwise, and where there was none, nothing can be loaded. The entries cover the words
as before, and splicing them one by one gives the same locals. -/
theorem load_after_store (f : Frame) (slot : UInt16) {v : VType} (hv : v ≠ .top) :
    let g := f.store slot v
    g.load slot = .ok v
      ∧ (width v = 2 → ∀ next : UInt16, next.toNat = slot.toNat + 1 →
          g.load next = .error (.unusableLocal next))
      ∧ g.locals.words = max f.locals.words (slot.toNat + width v)
      ∧ (∀ s : UInt16, s ≠ slot →
          (∀ w, f.locals.StartsAt s.toNat w →
            (s.toNat + width w ≤ slot.toNat ∨ slot.toNat + width v ≤ s.toNat →
              g.load s = f.load s)
            ∧ (slot.toNat < s.toNat + width w ∧ s.toNat < slot.toNat + width v →
              g.load s = .error (.unusableLocal s)))
          ∧ ((∀ w, f.locals.StartsAt s.toNat w → w = .top) →
              g.load s = .error (.unusableLocal s))
          ∧ (f.locals.words ≤ s.toNat → g.load s = .error (.unusableLocal s)))
      ∧ g.locals.Tiled
      ∧ f.locals.update slot.toNat v = some g.locals := by
  intro g
  have hposv := width_pos v
  refine ⟨load_store_self hv, fun hwide next hnext => ?_, words_store f slot v,
    fun s hs => ⟨fun w hw => ⟨load_store_of_apart hs hw, fun hoverlap => ?_⟩, fun hnone => ?_,
      fun hend => ?_⟩, g.locals.tiled, update_locals f slot v⟩
  · -- the second word of the stored value: whatever started there is overwritten
    refine load_store_of_not_apart (fun heq => by rw [heq] at hnext; omega) fun w _ _ => ?_
    have hpos := width_pos w
    omega
  · refine load_store_of_not_apart hs fun u _ hu => ?_
    -- only one value starts at a word, and it overlaps what was stored
    have heq : u = w := Option.some.inj
      ((WordSeq.startsAt_iff.mp hu).symm.trans (WordSeq.startsAt_iff.mp hw))
    rw [heq]
    exact hoverlap
  · exact load_store_of_not_apart hs fun w hw hstart => absurd (hnone w hstart) hw
  · refine load_store_of_not_apart hs fun w _ hstart => ?_
    -- beyond the end of the locals nothing starts
    have hle := f.locals.tiled.ends _ _ hstart
    have hpos := width_pos w
    omega

/-- A `double` stored across two `long`s leaves nothing of either, and what is behind them stays. -/
theorem load_after_store_across :
    let f := ofValues [.long, .long, .integer] []
    let g := f.store 1 .double
    g = ofValues [.top, .double, .top, .integer] []
      ∧ g.load 1 = .ok .double
      ∧ g.load 2 = .error (.unusableLocal 2)
      ∧ g.load 0 = .error (.unusableLocal 0)
      ∧ g.load 3 = .error (.unusableLocal 3)
      ∧ g.load 4 = f.load 4 ∧ f.load 4 = .ok .integer := by
  intro f g
  have hlong : f.locals.StartsAt 0 .long := ⟨0, rfl⟩
  have hinteger : f.locals.StartsAt 4 .integer := ⟨2, rfl⟩
  -- word 3 is inside of the second `long`
  have hinside : ∀ w, f.locals.StartsAt 3 w → w = .top := by
    rintro w ⟨i, hi⟩
    cases hi
  obtain ⟨hself, hsecond, _, hother, _⟩ := load_after_store f 1 (v := .double) (by decide)
  exact ⟨by decide, hself, hsecond rfl 2 rfl, ((hother 0 (by decide)).1 _ hlong).2 (by decide),
    (hother 3 (by decide)).2.1 hinside, ((hother 4 (by decide)).1 _ hinteger).1 (by decide), rfl⟩

end Frame

end JvmFrames
