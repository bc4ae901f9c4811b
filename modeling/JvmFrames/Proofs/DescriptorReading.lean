import JvmFrames.Descriptor.Parser

/-!
# Reading takes back what was written

A descriptor is self-delimiting: a reader finds its end whatever text follows. So each reader is
related to the written form with the rest of the text left open (`DescriptorReader.Inverts`), and
the readers of larger descriptors are built from those of their parts. What makes this work for
class names is that no name holds a semicolon, and for arrays that no element starts with a bracket.
-/

namespace JvmFrames

/-! ## Names

A class name is a text cut at its slashes, where no piece is empty or holds a character that means
something in a descriptor. The check goes over the pieces, and the readers need to know what it says
of the characters. -/

/-- The segments of a text are what splitting it at the slashes gives. -/
theorem segments_eq_splitOn (s : List Char) : segments s = s.splitOn '/' := by
  induction s with
  | nil => rfl
  | cons c cs ih =>
    rw [segments, List.splitOn_cons_eq_if_modifyHead, ih]
    by_cases hc : c = '/'
    · simp [hc]
    · cases hsplit : cs.splitOn '/' with
      | nil => exact absurd hsplit (List.splitOn_ne_nil '/' cs)
      | cons first later => simp [hc]

/-- No segment holds the character at which the text was split. -/
theorem slash_not_mem_of_mem_segments {s segment : List Char} (h : segment ∈ segments s) :
    '/' ∉ segment := by
  induction s generalizing segment with
  | nil =>
    rw [segments, List.mem_singleton] at h
    simp [h]
  | cons c cs ih =>
    rw [segments] at h
    by_cases hc : c = '/'
    · rw [if_pos hc] at h
      -- a slash closes the segment in front, which is empty so far
      rcases List.mem_cons.mp h with rfl | h
      · simp
      · exact ih h
    · rw [if_neg hc] at h
      -- any other character goes in front of the first segment of the rest
      cases hsegments : segments cs with
      | nil =>
        rw [hsegments] at h
        rw [List.mem_singleton.mp h]
        simpa using Ne.symm hc
      | cons first later =>
        rw [hsegments] at h
        rcases List.mem_cons.mp h with rfl | h
        · have hfirst := ih (hsegments ▸ List.mem_cons_self ..)
          simpa [Ne.symm hc] using hfirst
        · exact ih (hsegments ▸ List.mem_cons_of_mem _ h)

/-- A character other than a slash stands in one of the segments. -/
theorem exists_segment_of_mem {s : List Char} {x : Char} (hx : x ∈ s) (hne : x ≠ '/') :
    ∃ segment ∈ segments s, x ∈ segment := by
  induction s with
  | nil => cases hx
  | cons c cs ih =>
    rw [segments]
    by_cases hc : c = '/'
    · rw [if_pos hc]
      rcases List.mem_cons.mp hx with rfl | hx
      · exact absurd hc hne
      · obtain ⟨segment, hsegment, hmem⟩ := ih hx
        exact ⟨segment, List.mem_cons_of_mem _ hsegment, hmem⟩
    · rw [if_neg hc]
      cases hsegments : segments cs with
      | nil =>
        rw [segments_eq_splitOn] at hsegments
        exact absurd hsegments (List.splitOn_ne_nil '/' cs)
      -- `x` is the character put in front of the first segment, or it was in a segment already
      | cons first later =>
        rcases List.mem_cons.mp hx with rfl | hx
        · exact ⟨_, List.mem_cons_self .., List.mem_cons_self ..⟩
        · obtain ⟨segment, hsegment, hmem⟩ := ih hx
          rw [hsegments] at hsegment
          rcases List.mem_cons.mp hsegment with rfl | hsegment
          · exact ⟨_, List.mem_cons_self .., List.mem_cons_of_mem _ hmem⟩
          · exact ⟨segment, List.mem_cons_of_mem _ hsegment, hmem⟩

/-- A segment passes if it is not empty and has no reserved character. -/
theorem segmentFault?_eq_none_iff {segment : List Char} :
    segmentFault? segment = none
      ↔ segment ≠ [] ∧ ∀ x ∈ segment, isReservedInNames x = false := by
  unfold segmentFault?
  cases segment with
  | nil => simp
  | cons c cs => simp [List.find?_eq_none]

namespace ClassName

/-- What makes a text a class name. -/
theorem error?_eq_none_iff {text : String} :
    error? text = none ↔ text ≠ "" ∧ ∀ segment ∈ text.toList.splitOn '/',
      segment ≠ [] ∧ '.' ∉ segment ∧ ';' ∉ segment ∧ '[' ∉ segment := by
  have hempty : text.toList.isEmpty = true ↔ text = "" := by simp
  have hsegment : ∀ segment ∈ segments text.toList, segmentFault? segment = none
      ↔ segment ≠ [] ∧ '.' ∉ segment ∧ ';' ∉ segment ∧ '[' ∉ segment := by
    intro segment hmem
    rw [segmentFault?_eq_none_iff]
    -- the fourth reserved character is the one that separates segments
    have hslash := slash_not_mem_of_mem_segments hmem
    refine and_congr_right fun _ => ⟨fun hfree => ⟨?_, ?_, ?_⟩, ?_⟩
    · exact fun hdot => by simpa [isReservedInNames] using hfree _ hdot
    · exact fun hsemicolon => by simpa [isReservedInNames] using hfree _ hsemicolon
    · exact fun hbracket => by simpa [isReservedInNames] using hfree _ hbracket
    · rintro ⟨hdot, hsemicolon, hbracket⟩ x hx
      have hne : ∀ c, c ∉ segment → x ≠ c := fun c hc heq => hc (heq ▸ hx)
      simp [isReservedInNames, hne _ hdot, hne _ hsemicolon, hne _ hbracket, hne _ hslash]
  unfold error?
  rw [← segments_eq_splitOn]
  by_cases htext : text = ""
  · simp [htext]
  · rw [if_neg (by rwa [hempty]), Option.map_eq_none_iff, List.findSome?_eq_none_iff]
    constructor
    · exact fun h => ⟨htext, fun segment hmem => (hsegment segment hmem).mp (h segment hmem)⟩
    · exact fun h segment hmem => (hsegment segment hmem).mpr (h.2 segment hmem)

/-- Reading a text as a class name gives the name with that text, if there is one. -/
theorem parse_eq_ok_iff {text : String} {c : ClassName} : parse text = .ok c ↔ c.text = text := by
  unfold parse
  split
  · rw [Except.ok.injEq]
    constructor
    · rintro rfl
      rfl
    · rintro rfl
      rfl
  · -- the text of a name is valid, so it cannot have been refused
    next e he =>
    constructor
    · intro h
      cases h
    · rintro rfl
      rw [c.valid] at he
      cases he

/-- A name holds none of the characters that end it or start another type. -/
theorem not_mem_text (c : ClassName) : ';' ∉ c.text.toList ∧ '[' ∉ c.text.toList := by
  have hfree : ∀ x : Char, x ≠ '/' → (∀ segment ∈ segments c.text.toList, x ∉ segment) →
      x ∉ c.text.toList := by
    intro x hne hsegments hx
    obtain ⟨segment, hmem, hx⟩ := exists_segment_of_mem hx hne
    exact hsegments segment hmem hx
  have hvalid := (error?_eq_none_iff.mp c.valid).2
  rw [← segments_eq_splitOn] at hvalid
  exact ⟨hfree _ (by decide) fun segment hmem => (hvalid segment hmem).2.2.1,
    hfree _ (by decide) fun segment hmem => (hvalid segment hmem).2.2.2⟩

end ClassName

/-! ## Readers and written forms

To say that a reader takes back what was written, the text behind it is left open. Then the reader
of a pair can be put together from the readers of its parts. -/

namespace DescriptorReader

variable {α β : Type}

/-- The reader takes the written form of a value off the front of a text, and nothing else. -/
def Inverts (read : DescriptorReader α) (written : α → List Char) : Prop :=
  ∀ s a rest, read s = .ok (a, rest) ↔ s = written a ++ rest

/-- A text that is read as a whole is the written form of what comes out. -/
theorem Inverts.parse {read : DescriptorReader α} {written : α → List Char}
    (h : read.Inverts written) {text : String} {a : α} :
    read.parse text = .ok a ↔ String.ofList (written a) = text := by
  have hwhole : read text.toList = .ok (a, []) ↔ String.ofList (written a) = text := by
    rw [h, List.append_nil, ← String.toList_inj, String.toList_ofList]
    exact eq_comm
  rw [← hwhole]
  unfold DescriptorReader.parse
  split
  · simp [*]
  · next b hread => simp [hread]
  · simp [*]

/-- A reader finds the end of what was written, whatever follows. -/
theorem Inverts.front {read : DescriptorReader α} {written : α → List Char}
    (h : read.Inverts written) (a : α) (rest : String) :
    read (String.ofList (written a) ++ rest).toList = .ok (a, rest.toList) := by
  rw [h, String.toList_append, String.toList_ofList]

/-- A reader followed by a function on its value. -/
theorem map_eq_ok_iff {r : Except DescriptorError (α × List Char)} {f : α → β} {b : β}
    {rest : List Char} :
    (do let (a, rest) ← r; return (f a, rest)) = Except.ok (b, rest)
      ↔ ∃ a, r = .ok (a, rest) ∧ f a = b := by
  cases r with
  | error e => exact ⟨nofun, nofun⟩
  | ok p =>
    obtain ⟨a, rest'⟩ := p
    constructor
    · intro h
      cases h
      exact ⟨a, rfl, rfl⟩
    · rintro ⟨_, h, rfl⟩
      cases h
      rfl

end DescriptorReader

open DescriptorReader

/-! ## Types

One inverse for each kind of type. Where a reader looks at the first character to choose between two
kinds, their written forms have to start differently. -/

/-- Every letter of a base type is the letter of one of them only. -/
theorem BaseType.ofLetter?_eq_some_iff {c : Char} {t : BaseType} :
    ofLetter? c = some t ↔ c = t.letter := by
  constructor
  · intro h
    unfold ofLetter? at h
    split at h <;> cases h <;> rfl
  · rintro rfl
    cases t <;> rfl

/-- A base type is read back from its letter. -/
theorem BaseType.inverts : DescriptorReader.Inverts BaseType.read BaseType.renderChars := by
  intro s t rest
  cases s with
  | nil => simp [BaseType.read, renderChars]
  | cons c cs =>
    rw [BaseType.read, renderChars, List.singleton_append, List.cons.injEq,
      ← ofLetter?_eq_some_iff]
    cases ofLetter? c <;> simp

/-- What stands before the first of some characters is empty if the text starts with one. -/
theorem cons_eq_append_cons_iff {x : Char} {s before rest : List Char} (hfree : x ∉ before) :
    x :: s = before ++ x :: rest ↔ before = [] ∧ s = rest := by
  cases before with
  | nil => simp
  | cons y before =>
    have hxy : x ≠ y := fun heq => hfree (heq ▸ List.mem_cons_self ..)
    simp [hxy]

/-- The body of a class ends at the first semicolon. -/
theorem ClassName.readBody_eq_ok_iff {body s rest : List Char} {c : ClassName} :
    readBody body s = .ok (c, rest) ↔ ∃ name, s = name ++ ';' :: rest ∧ ';' ∉ name
      ∧ parse (String.ofList (body.reverse ++ name)) = .ok c := by
  -- the body so far is kept in reverse; the induction follows the text that is left
  fun_induction readBody body s with
  | case1 body => simp
  | case2 body s name hname =>
    constructor
    · intro h
      cases h
      exact ⟨[], rfl, List.not_mem_nil, by rw [List.append_nil, hname]⟩
    · rintro ⟨chars, hs, hfree, hc⟩
      obtain ⟨rfl, rfl⟩ := (cons_eq_append_cons_iff hfree).mp hs
      rw [List.append_nil, hname, Except.ok.injEq] at hc
      rw [hc]
  | case3 body s e hname =>
    constructor
    · intro h
      cases h
    · rintro ⟨chars, hs, hfree, hc⟩
      obtain ⟨rfl, rfl⟩ := (cons_eq_append_cons_iff hfree).mp hs
      rw [List.append_nil, hname] at hc
      cases hc
  | case4 body x s hx ih =>
    refine ih.trans ⟨?_, ?_⟩
    · rintro ⟨name, rfl, hfree, hc⟩
      refine ⟨x :: name, rfl, ?_, ?_⟩
      · simpa [hfree] using Ne.symm hx
      · rw [← hc, List.reverse_cons, List.append_assoc, List.singleton_append]
    · rintro ⟨chars, hs, hfree, hc⟩
      cases chars with
      | nil =>
        cases hs
        exact absurd rfl hx
      | cons y name =>
        cases hs
        refine ⟨name, rfl, fun hmem => hfree (List.mem_cons_of_mem _ hmem), ?_⟩
        rw [← hc, List.reverse_cons, List.append_assoc, List.singleton_append]

/-- A class is read back from its name between `L` and a semicolon. -/
theorem ClassName.inverts : DescriptorReader.Inverts ClassName.read ClassName.renderChars := by
  intro s c rest
  -- the name cannot contain the semicolon that ends it, so the body is cut at the right one
  have hbody : ∀ s, readBody [] s = .ok (c, rest) ↔ s = c.text.toList ++ ';' :: rest := by
    intro s
    rw [readBody_eq_ok_iff]
    constructor
    · rintro ⟨name, rfl, _, hc⟩
      rw [parse_eq_ok_iff.mp hc]
      simp
    · rintro rfl
      exact ⟨_, rfl, c.not_mem_text.1, by simp [parse_eq_ok_iff]⟩
  unfold ClassName.read renderChars
  split
  · rw [hbody]
    simp
  · next hstart =>
    constructor
    · intro h
      cases h
    · rintro rfl
      exact absurd rfl (hstart _)

/-- Brackets in front of an element count as further dimensions. -/
theorem RefType.readElement_replicate (n k : Nat) (s : List Char) :
    readElement n (List.replicate k '[' ++ s) = readElement (n + k) s := by
  induction k generalizing n with
  | zero => rfl
  | succ k ih =>
    show readElement (n + 1) (List.replicate k '[' ++ s) = _
    rw [ih, Nat.add_right_comm, Nat.add_assoc]

/-- What is read as an element, with the brackets before it, is the written form of an array. -/
theorem RefType.eq_of_readElement {n : Nat} {s rest : List Char} {t : RefType}
    (h : readElement n s = .ok (t, rest)) :
    List.replicate (n + 1) '[' ++ s = t.renderChars ++ rest := by
  fun_induction readElement n s with
  | case1 => cases h
  | case2 n cs =>
    obtain ⟨c, hc, rfl⟩ := map_eq_ok_iff.mp h
    rw [(ClassName.inverts ..).mp hc, renderChars, List.append_assoc]
  | case3 n cs ih =>
    rw [← ih h, List.replicate_succ' (n := n + 1), List.append_assoc, List.singleton_append]
  | case4 n cs _ _ _ =>
    obtain ⟨b, hb, rfl⟩ := map_eq_ok_iff.mp h
    rw [(BaseType.inverts ..).mp hb, renderChars, List.append_assoc]

/-- A reference type is read back, whatever number of dimensions it has. -/
theorem RefType.inverts : DescriptorReader.Inverts RefType.read RefType.renderChars := by
  intro s t rest
  constructor
  · intro h
    unfold RefType.read at h
    split at h
    · cases h
    · obtain ⟨c, hc, rfl⟩ := map_eq_ok_iff.mp h
      exact (ClassName.inverts ..).mp hc
    · exact eq_of_readElement h
    · cases h
  · rintro rfl
    cases t with
    | object c => exact map_eq_ok_iff.mpr ⟨c, (ClassName.inverts ..).mpr rfl, rfl⟩
    | objectArray n c =>
      show readElement 0 (List.replicate n '[' ++ c.renderChars ++ rest) = _
      rw [List.append_assoc, readElement_replicate, Nat.zero_add]
      exact map_eq_ok_iff.mpr ⟨c, (ClassName.inverts ..).mpr rfl, rfl⟩
    | primitiveArray n b =>
      show readElement 0 (List.replicate n '[' ++ b.renderChars ++ rest) = _
      rw [List.append_assoc, readElement_replicate, Nat.zero_add]
      -- no letter of a base type is a bracket or starts a class, so the reader comes to its last
      -- case
      have hb := (BaseType.inverts ..).mpr (rfl : b.renderChars ++ rest = _)
      cases b <;> exact map_eq_ok_iff.mpr ⟨_, hb, rfl⟩

/-- A reference type starts with one of two characters, and these are no letters of base types. -/
theorem RefType.exists_renderChars (t : RefType) :
    ∃ c cs, t.renderChars = c :: cs ∧ (c = 'L' ∨ c = '[') := by
  cases t with
  | object c => exact ⟨_, _, rfl, Or.inl rfl⟩
  | objectArray n c => exact ⟨_, _, rfl, Or.inr rfl⟩
  | primitiveArray n t => exact ⟨_, _, rfl, Or.inr rfl⟩

/-- A field type is read back: its first character tells whether it is a reference. -/
theorem FieldType.inverts : DescriptorReader.Inverts FieldType.read FieldType.renderChars := by
  intro s t rest
  constructor
  · intro h
    unfold FieldType.read at h
    split at h
    · cases h
    · split at h
      · obtain ⟨r, hr, rfl⟩ := map_eq_ok_iff.mp h
        exact (RefType.inverts ..).mp hr
      · obtain ⟨b, hb, rfl⟩ := map_eq_ok_iff.mp h
        exact (BaseType.inverts ..).mp hb
  · rintro rfl
    cases t with
    | base b => cases b <;> rfl
    | ref r =>
      -- the first character of a rendered reference sends the reader the right way
      obtain ⟨c, cs, hr, hc⟩ := r.exists_renderChars
      have hread := (RefType.inverts ..).mpr (rfl : r.renderChars ++ rest = _)
      rw [renderChars]
      rw [hr, List.cons_append] at hread ⊢
      rw [FieldType.read, if_pos hc]
      exact map_eq_ok_iff.mpr ⟨r, hread, rfl⟩

/-- No type starts like the end of the parameters or like the letter for no result. -/
theorem FieldType.exists_renderChars (t : FieldType) :
    ∃ c cs, t.renderChars = c :: cs ∧ c ≠ ')' ∧ c ≠ 'V' := by
  cases t with
  | base b => exact ⟨b.letter, [], rfl, by cases b <;> decide, by cases b <;> decide⟩
  | ref r =>
    obtain ⟨c, cs, hr, rfl | rfl⟩ := r.exists_renderChars
    · exact ⟨_, cs, hr, by decide, by decide⟩
    · exact ⟨_, cs, hr, by decide, by decide⟩

/-! ## Methods

The parameters are read until a closing parenthesis comes, so no type may start with one. -/

namespace MethodDescriptor

/-- Parameters that were written one after the other are read one after the other. -/
theorem readParameters_append (ts : List FieldType) (rest : List Char) :
    readParameters (ts.flatMap FieldType.renderChars ++ ')' :: rest) = .ok (ts, rest) := by
  induction ts with
  | nil => simp [readParameters]
  | cons t ts ih =>
    rw [List.flatMap_cons, List.append_assoc]
    have hread := (FieldType.inverts _ t (ts.flatMap FieldType.renderChars ++ ')' :: rest)).mpr rfl
    -- no type begins with the parenthesis that ends the list, so another one is read
    obtain ⟨c, cs, ht, hc, _⟩ := t.exists_renderChars
    rw [ht, List.cons_append] at hread ⊢
    rw [readParameters.eq_3 _ _ hc]
    split
    · next e herror => rw [hread] at herror; cases herror
    · next t' rest' hok =>
      rw [hread] at hok
      cases hok
      simp only [ih]

/-- What is read as parameters is what was written for them, with the parenthesis that ends them. -/
theorem eq_of_readParameters {s rest : List Char} {ts : List FieldType}
    (h : readParameters s = .ok (ts, rest)) :
    s = ts.flatMap FieldType.renderChars ++ ')' :: rest := by
  fun_induction readParameters s generalizing ts with
  | case1 => cases h
  | case2 s => cases h; rfl
  | case3 => cases h
  | case4 => cases h
  | case5 c cs _ t after hread _ us tail htail ih =>
    cases h
    rw [List.flatMap_cons, List.append_assoc, ← ih htail]
    exact (FieldType.inverts ..).mp hread

/-- A result is read back; the letter for none of them starts no type. -/
theorem inverts_readResult : readResult.Inverts FieldType.renderResultChars := by
  intro s result rest
  constructor
  · intro h
    unfold readResult at h
    split at h
    · cases h
      rfl
    · obtain ⟨t, ht, rfl⟩ := map_eq_ok_iff.mp h
      exact (FieldType.inverts ..).mp ht
  · rintro rfl
    cases result with
    | none => rfl
    | some t =>
      have hread := (FieldType.inverts _ t rest).mpr rfl
      -- no type begins with a `V`, so the reader does not stop there
      obtain ⟨c, cs, ht, _, hc⟩ := t.exists_renderChars
      rw [FieldType.renderResultChars]
      rw [ht, List.cons_append] at hread ⊢
      rw [readResult.eq_2 _ fun after heq => hc (List.cons.inj heq).1]
      exact map_eq_ok_iff.mpr ⟨t, hread, rfl⟩

/-- A method descriptor is read back from its parts. -/
theorem inverts : DescriptorReader.Inverts MethodDescriptor.read MethodDescriptor.renderChars := by
  intro s d rest
  constructor
  · intro h
    unfold MethodDescriptor.read at h
    split at h
    · next s =>
      cases hparameters : readParameters s with
      | error e => rw [hparameters] at h; cases h
      | ok p =>
        obtain ⟨parameters, after⟩ := p
        rw [hparameters] at h
        obtain ⟨result, hresult, rfl⟩ := map_eq_ok_iff.mp h
        -- put together again from the two parts that were read
        rw [eq_of_readParameters hparameters, (inverts_readResult ..).mp hresult]
        simp [renderChars]
    · cases h
  · rintro rfl
    obtain ⟨parameters, result⟩ := d
    rw [renderChars, List.cons_append, List.append_assoc, List.cons_append, MethodDescriptor.read,
      readParameters_append]
    exact map_eq_ok_iff.mpr ⟨result, (inverts_readResult ..).mpr rfl, rfl⟩

end MethodDescriptor

/-! ## Class constants

In a class constant an array is written as in a descriptor and a class by its bare name. The bracket
in front tells one from the other. -/

/-- The class constant of an array starts with a bracket. -/
theorem RefType.exists_className_of_isArray {t : RefType} (ht : t.isArray = true) :
    ∃ cs, t.className.toList = '[' :: cs := by
  cases t with
  | object c => cases ht
  | objectArray n c => exact ⟨_, String.toList_ofList⟩
  | primitiveArray n b => exact ⟨_, String.toList_ofList⟩

/-- The names of arrays start with a bracket and those of classes do not, so a name tells which of
the two it is. -/
theorem RefType.ofClassName_eq_ok_iff {text : String} {t : RefType} :
    ofClassName text = .ok t ↔ t.className = text := by
  have hparse : RefType.parse text = .ok t ↔ t.render = text := RefType.inverts.parse
  unfold ofClassName
  split
  · next cs htext =>
    rw [hparse]
    cases t with
    | object c =>
      -- neither a class in a descriptor nor its bare name starts like this text
      constructor
      · rintro rfl
        rw [render, String.toList_ofList] at htext
        cases htext
      · rintro rfl
        have hmem : '[' ∈ c.text.toList := by
          rw [show c.text.toList = _ from htext]
          exact List.mem_cons_self ..
        exact absurd hmem c.not_mem_text.2
    | objectArray n c => rfl
    | primitiveArray n b => rfl
  · next hstart =>
    have harray : t.isArray = true → t.className ≠ text := by
      rintro ht rfl
      obtain ⟨cs, hcs⟩ := exists_className_of_isArray ht
      exact hstart cs hcs
    cases t with
    | object d =>
      rw [className, ← ClassName.parse_eq_ok_iff]
      cases ClassName.parse text <;> simp
    | objectArray n c =>
      refine iff_of_false ?_ (harray rfl)
      cases ClassName.parse text <;> simp
    | primitiveArray n b =>
      refine iff_of_false ?_ (harray rfl)
      cases ClassName.parse text <;> simp

/-- Rendering a descriptor and reading it are inverse to each other: a reader finds a rendered
descriptor in front of any text, and a whole text is read exactly if it is what some descriptor is
rendered as. The names in descriptors are the texts that are accepted as names, and these are told
by their segments. The names that class constants give to types determine the types. -/
theorem readers_invert_rendering :
    (∀ (t : FieldType) (rest : String),
        FieldType.read (t.render ++ rest).toList = .ok (t, rest.toList))
      ∧ (∀ (t : RefType) (rest : String),
        RefType.read (t.render ++ rest).toList = .ok (t, rest.toList))
      ∧ (∀ (d : MethodDescriptor) (rest : String),
        MethodDescriptor.read (d.render ++ rest).toList = .ok (d, rest.toList))
      ∧ (∀ text t, FieldType.parse text = .ok t ↔ t.render = text)
      ∧ (∀ text t, RefType.parse text = .ok t ↔ t.render = text)
      ∧ (∀ text d, MethodDescriptor.parse text = .ok d ↔ d.render = text)
      ∧ (∀ c : ClassName, ClassName.parse c.text = .ok c)
      ∧ (∀ text, (∃ c, ClassName.parse text = .ok c) ↔
        text ≠ "" ∧ ∀ segment ∈ text.toList.splitOn '/',
          segment ≠ [] ∧ '.' ∉ segment ∧ ';' ∉ segment ∧ '[' ∉ segment)
      ∧ (∀ t : RefType, RefType.ofClassName t.className = .ok t)
      ∧ ∀ text t, RefType.ofClassName text = .ok t → t.className = text := by
  refine ⟨FieldType.inverts.front, RefType.inverts.front, MethodDescriptor.inverts.front,
    fun _ _ => FieldType.inverts.parse, fun _ _ => RefType.inverts.parse,
    fun _ _ => MethodDescriptor.inverts.parse, fun _ => ClassName.parse_eq_ok_iff.mpr rfl,
    fun text => ?_, fun _ => RefType.ofClassName_eq_ok_iff.mpr rfl,
    fun _ _ => RefType.ofClassName_eq_ok_iff.mp⟩
  -- the conditions on segments are those under which a name is not refused
  rw [← ClassName.error?_eq_none_iff]
  constructor
  · rintro ⟨c, hc⟩
    rw [← ClassName.parse_eq_ok_iff.mp hc]
    exact c.valid
  · intro hvalid
    exact ⟨⟨text, hvalid⟩, ClassName.parse_eq_ok_iff.mpr rfl⟩

/-- A name may hold the letters and parentheses that descriptors are made of. -/
theorem readers_invert_rendering_odd_name :
    ∃ c : ClassName, c.text = "a/(V)L"
      ∧ MethodDescriptor.parse "([[La/(V)L;J)V"
        = .ok ⟨[.ref (.objectArray 1 c), .base .long], none⟩
      ∧ RefType.ofClassName "[[La/(V)L;" = .ok (.objectArray 1 c)
      ∧ (RefType.objectArray 1 c).className = "[[La/(V)L;" := by
  obtain ⟨_, _, _, _, _, hmethod, _, _, hnamed, hback⟩ := readers_invert_rendering
  have hname := hnamed (.objectArray 1 ⟨"a/(V)L", by decide⟩)
  rw [show RefType.className _ = "[[La/(V)L;" by decide] at hname
  exact ⟨⟨"a/(V)L", by decide⟩, rfl, (hmethod _ _).mpr (by decide), hname, hback _ _ hname⟩

end JvmFrames
