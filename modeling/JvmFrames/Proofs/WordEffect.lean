import JvmFrames.Proofs.Effect
import JvmFrames.Proofs.Locals

/-!
# Effects in words

How many words an instruction leaves on the stack depends on how many there were and on the
instruction with its descriptors, not on the values. The tables `Instruction.effect` and
`Branch.effect` give the difference. They are compared with the actions by running these on numbers
of words alone (`Action.depthAfter`), action by action. Locals are counted in the same way
(`Action.wordsAfter`): only stores make them longer.
-/

namespace JvmFrames

/-! ## The tables

Effects as the instructions are documented, one number for each. They are read off the operands and
descriptors, without looking at a frame. -/

/-- The words of a value of this kind. -/
def ValueKind.words : ValueKind → Nat
  | .number k => width k.value
  | .reference => 1

/-- Words added to the stack. -/
def Shuffle.effect : Shuffle → Int
  | pop => -1
  | pop2 => -2
  | dup | dupX1 | dupX2 => 1
  | dup2 | dup2X1 | dup2X2 => 2
  | swap => 0

/-- The words of all parameters. -/
def MethodDescriptor.argumentWords (d : MethodDescriptor) : Nat := wordCount d.parameters

/-- The words of the result, none if there is no result. -/
def MethodDescriptor.resultWords (d : MethodDescriptor) : Nat := (d.result.map width).getD 0

/-- Words added to the stack. -/
def Instruction.effect : Instruction → Int
  | nop | increment _ _ | negate _ => 0
  | const c => width c.value
  | bipush _ | sipush _ => 1
  | ldc c => width c.value
  | load k _ => k.words
  | store k _ => -k.words
  | arrayLoad k => width k.value - 2
  | arrayStore k => -width k.value - 2
  | shuffle how => how.effect
  | arithmetic k _ => -width k.value
  | bitwise k _ => -width k.value
  | shift _ _ => -1
  | convert c => width c.target - width c.source
  | compareLong | compareDouble _ => -3
  | compareFloat _ => -1
  | getStatic f => width f.descriptor
  | putStatic f => -width f.descriptor
  | getField f => width f.descriptor - 1
  | putField f => -width f.descriptor - 1
  | invoke kind m => m.descriptor.resultWords - m.descriptor.argumentWords
      - if kind = .static then 0 else 1
  | invokeDynamic d => d.descriptor.resultWords - d.descriptor.argumentWords
  | new _ => 1
  | newArray _ | newRefArray _ => 0
  | newMultiArray _ dimensions => 1 - dimensions.toNat
  | arrayLength | checkCast _ | instanceOf _ => 0
  | monitorEnter | monitorExit => -1

/-- Words added to the stack. Nothing comes after a `throw`, and subroutines are refused. -/
def Branch.effect : Branch → Int
  | ifZero _ _ | ifNull _ _ | tableSwitch _ _ _ | lookupSwitch _ _ => -1
  | ifInts _ _ | ifRefs _ _ => -2
  | goto _ | returnVoid | throw | jsr _ | ret _ => 0
  | returnValue k => -k.words

/-! ## Actions in words

The actions of an instruction are run on two numbers in place of a frame: the words of the stack and
those of the locals. -/

/-- The words of a value that passes the check. -/
def Check.words : Check → Nat
  | exactly v => width v
  | _ => 1

namespace Action

/-- The words on the stack after an action. -/
def depthAfter (depth : Int) : Action → Int
  | take check => depth - check.words
  | push v => depth + width v
  | takeTwoReferences => depth - 2
  | loadReference _ => depth + 1
  | storeReference _ | construct _ => depth - 1
  | shuffle how => depth + how.effect
  | raise => 1
  | element | expectLocal _ _ | storeLocal _ _ | fail _ => depth

/-- The words of the locals after an action. -/
def wordsAfter (words : Nat) : Action → Nat
  | storeLocal slot v => max words (slot.toNat + width v)
  | storeReference slot => max words (slot.toNat + 1)
  | _ => words

end Action

@[simp] theorem width_integer : width (.integer : VType) = 1 := rfl

@[simp] theorem width_float : width (.float : VType) = 1 := rfl

@[simp] theorem width_long : width (.long : VType) = 2 := rfl

@[simp] theorem width_double : width (.double : VType) = 2 := rfl

@[simp] theorem width_object (t : RefType) : width (.object t : VType) = 1 := rfl

/-- Everything but a `long` and a `double` has one word. -/
theorem width_eq_one {v : VType} (hlong : v ≠ .long) (hdouble : v ≠ .double) : width v = 1 := by
  cases v with
  | long => exact absurd rfl hlong
  | double => exact absurd rfl hdouble
  | _ => rfl

/-- A check lets through values of one width only. -/
theorem Check.width_eq {check : Check} {v : VType} (h : check.error? v = none) :
    width v = check.words := by
  cases check with
  | exactly w => rw [exactly_error?.mp h]; rfl
  | narrow => exact narrow_error?.mp h
  | _ => exact width_eq_one (by rintro rfl; cases h) (by rintro rfl; cases h)

theorem TwoWords.wordCount_eq {vs : List VType} (h : TwoWords vs) : wordCount vs = 2 := by
  cases h with
  | wide a ha =>
    have := width_eq_one_or_two a
    rw [wordCount_cons, wordCount_nil]
    omega
  | narrow a b ha hb => simp [ha, hb]

/-- A shuffle adds as many words as its effect says. -/
theorem Shuffle.Rearranges.wordCount_eq {how : Shuffle} {taken given : List VType}
    (h : how.Rearranges taken given) : (wordCount given : Int) = wordCount taken + how.effect := by
  cases h with
  | pop a ha => simp [effect, ha]
  | pop2 g hg => simp [effect, hg.wordCount_eq]
  | dup a ha => simp [effect, ha]
  | dupX1 a b ha hb => simp [effect, ha, hb]
  | dupX2 a u ha hu => simp [effect, ha, hu.wordCount_eq]
  | dup2 g hg => simp [effect, hg.wordCount_eq]
  | dup2X1 g b hg hb => simp [effect, hg.wordCount_eq, hb]
  | dup2X2 g u hg hu => simp [effect, hg.wordCount_eq, hu.wordCount_eq]
  | swap a b ha hb => simp [effect, ha, hb]

namespace Action.Acts

variable {a : Action} {f f' : Frame}

/-- An action leaves as many words on the stack as it does when run on numbers. -/
theorem stackWords_eq (h : a.Acts f f') : (f'.stackWords : Int) = a.depthAfter f.stackWords := by
  cases h with
  | take check v rest hstack hcheck =>
    -- the check knows the width of what it lets through
    have hv := Check.width_eq hcheck
    show (wordCount rest : Int) = wordCount f.stack - check.words
    rw [hstack, wordCount_cons]
    omega
  | push v =>
    show (wordCount (v :: f.stack) : Int) = wordCount f.stack + width v
    rw [wordCount_cons]
    omega
  | element v rest hstack hcheck =>
    have hv : width v = 1 := Check.width_eq hcheck
    -- an element is a reference or `null`, and an array was one word too
    have helement : width v.elementOf = 1 := by
      unfold VType.elementOf
      split
      · split <;> rfl
      · rfl
    show (wordCount (v.elementOf :: rest) : Int) = wordCount f.stack
    rw [hstack, wordCount_cons, wordCount_cons, hv, helement]
  | takeTwoReferences v w rest hstack hv hw =>
    have hv : width v = 1 := Check.width_eq (Check.reference_error?.mpr hv)
    have hw : width w = 1 := Check.width_eq (Check.reference_error?.mpr hw)
    show (wordCount rest : Int) = wordCount f.stack - 2
    rw [hstack, wordCount_cons, wordCount_cons]
    omega
  | expectLocal slot v hload => rfl
  | loadReference slot v hload hv =>
    have hv : width v = 1 := Check.width_eq (Check.reference_error?.mpr hv)
    show (wordCount (v :: f.stack) : Int) = wordCount f.stack + 1
    rw [wordCount_cons]
    omega
  | storeLocal slot v => rfl
  | storeReference slot v rest hstack hv =>
    have hv : width v = 1 := Check.width_eq (Check.reference_error?.mpr hv)
    show (wordCount rest : Int) = wordCount f.stack - 1
    rw [hstack, wordCount_cons]
    omega
  | shuffle how taken given rest hstack hhow =>
    have hgiven := hhow.wordCount_eq
    show (wordCount (given ++ rest) : Int) = wordCount f.stack + how.effect
    rw [hstack, wordCount_append, wordCount_append]
    omega
  | construct this v rest hstack hv =>
    have hv : width v = 1 := Check.width_eq (Check.uninitialized_error?.mpr hv)
    show (wordCount (rest.map _) : Int) = wordCount f.stack - 1
    -- a completed value is as wide as before, in all of its copies
    rw [wordCount_map (width_construct v this), hstack, wordCount_cons]
    omega
  | raise v rest hstack hv =>
    have hv : width v = 1 := Check.width_eq (Check.initialized_error?.mpr hv)
    show (wordCount [v] : Int) = 1
    rw [wordCount_cons, hv]
    rfl

/-- An action leaves as many words of locals as it does when run on numbers. -/
theorem words_eq (h : a.Acts f f') : f'.locals.words = a.wordsAfter f.locals.words := by
  cases h with
  | storeLocal slot v => exact Frame.words_store f slot v
  | storeReference slot v rest hstack hv =>
    have hv : width v = 1 := Check.width_eq (Check.reference_error?.mpr hv)
    rw [Frame.words_store, hv]
    rfl
  -- the locals are changed here too, but not in their widths
  | construct this v rest hstack hv =>
    rw [Frame.construct, Frame.map, WordSeq.map, WordSeq.words_ofList,
      wordCount_map (width_construct v this), ← WordSeq.words_eq_wordCount]
    rfl
  | take _ _ _ _ _ => rfl
  | push _ => rfl
  | element _ _ _ _ => rfl
  | takeTwoReferences _ _ _ _ _ _ => rfl
  | expectLocal _ _ _ => rfl
  | loadReference _ _ _ _ => rfl
  | shuffle _ _ _ _ _ _ => rfl
  | raise _ _ _ _ => rfl

end Action.Acts

/-- What a list of actions leaves is what its actions make of the numbers of words in turn. -/
theorem Frame.words_perform {actions : List Action} {f f' : Frame}
    (h : f.perform actions = .ok f') :
    (f'.stackWords : Int) = actions.foldl Action.depthAfter (f.stackWords : Int)
      ∧ f'.locals.words = actions.foldl Action.wordsAfter f.locals.words := by
  induction actions generalizing f with
  | nil => cases h; exact ⟨rfl, rfl⟩
  | cons a rest ih =>
    rw [perform] at h
    cases happly : a.apply f with
    | error fault => rw [happly] at h; cases h
    | ok g =>
      rw [happly] at h
      have hacts := Action.acts_of_apply happly
      rw [List.foldl_cons, List.foldl_cons, ← hacts.stackWords_eq, ← hacts.words_eq]
      exact ih h

/-! ## Instructions and branches

Running the actions on numbers gives the effects of the tables. The lists of actions for arguments,
receivers and results are counted once, for all instructions that use them. -/

/-- A value is as wide as its declared type. -/
theorem VType.width_ofField (t : FieldType) : width (VType.ofField t) = width t := by
  cases t with
  | base t => cases t <;> rfl
  | ref r => rfl

namespace Action

/-- Taking the value of a field removes its words. -/
theorem depthAfter_takeField (t : FieldType) (depth : Int) :
    (takeField t).depthAfter depth = depth - width t := by
  cases t with
  | base t => exact congrArg (depth - ·) (congrArg _ (VType.width_ofField (.base t)))
  | ref r => rfl

/-- Taking arguments removes their words. -/
theorem depthAfter_takeArguments (d : MethodDescriptor) (depth : Int) :
    (takeArguments d).foldl depthAfter depth = depth - d.argumentWords := by
  have hlist : ∀ (ts : List FieldType) (depth : Int),
      (ts.map takeField).foldl depthAfter depth = depth - wordCount ts := by
    intro ts
    induction ts with
    | nil => simp
    | cons t rest ih =>
      intro depth
      rw [List.map_cons, List.foldl_cons, depthAfter_takeField, ih, wordCount_cons]
      omega
  rw [takeArguments, hlist, wordCount_reverse, MethodDescriptor.argumentWords]

/-- Pushing a result adds its words. -/
theorem depthAfter_pushResult (d : MethodDescriptor) (depth : Int) :
    (pushResult d).foldl depthAfter depth = depth + d.resultWords := by
  unfold pushResult MethodDescriptor.resultWords
  cases d.result with
  | none => simp
  | some t => simp [depthAfter, VType.width_ofField]

/-- Taking a receiver removes one word, but for a static call. -/
theorem depthAfter_takeReceiver (this : ClassName) (kind : InvokeKind) (m : MethodRef)
    (depth : Int) : (takeReceiver this kind m).foldl depthAfter depth
      = depth - if kind = .static then 0 else 1 := by
  unfold takeReceiver
  split
  case isTrue h => simp [h.1, depthAfter]
  case isFalse =>
    split
    case isTrue => simp
    case isFalse => rfl

/-- Taking lengths removes one word for each. -/
theorem depthAfter_replicate (n : Nat) (depth : Int) :
    (List.replicate n (takeExactly .integer)).foldl depthAfter depth = depth - n := by
  induction n generalizing depth with
  | zero => simp
  | succ n ih =>
    rw [List.replicate_succ, List.foldl_cons, ih]
    show depth - 1 - (n : Int) = depth - (n + 1 : Nat)
    omega

/-- Actions that do not store leave the locals as long as they were. -/
theorem foldl_wordsAfter {actions : List Action}
    (h : ∀ a ∈ actions, ∀ words, a.wordsAfter words = words) (words : Nat) :
    actions.foldl wordsAfter words = words := by
  induction actions with
  | nil => rfl
  | cons a rest ih =>
    rw [List.foldl_cons, h a List.mem_cons_self]
    exact ih fun b hb => h b (List.mem_cons_of_mem a hb)

theorem wordsAfter_takeField (t : FieldType) (words : Nat) :
    (takeField t).wordsAfter words = words := by
  cases t <;> rfl

theorem wordsAfter_takeArguments (d : MethodDescriptor) (words : Nat) :
    (takeArguments d).foldl wordsAfter words = words := by
  refine foldl_wordsAfter (fun a ha words => ?_) words
  obtain ⟨t, _, rfl⟩ := List.mem_map.mp ha
  exact wordsAfter_takeField t words

theorem wordsAfter_pushResult (d : MethodDescriptor) (words : Nat) :
    (pushResult d).foldl wordsAfter words = words := by
  unfold pushResult
  cases d.result <;> rfl

theorem wordsAfter_takeReceiver (this : ClassName) (kind : InvokeKind) (m : MethodRef)
    (words : Nat) : (takeReceiver this kind m).foldl wordsAfter words = words := by
  unfold takeReceiver
  split
  · rfl
  · split <;> rfl

theorem wordsAfter_expectResult (result : Option FieldType) (accepted : Bool) (words : Nat) :
    (expectResult result accepted).foldl wordsAfter words = words := by
  unfold expectResult
  split <;> rfl

theorem depthAfter_expectResult (result : Option FieldType) (accepted : Bool) (depth : Int) :
    (expectResult result accepted).foldl depthAfter depth = depth := by
  unfold expectResult
  split <;> rfl

end Action

/-- The actions of an instruction add its effect, if a `new` has a site. -/
theorem Instruction.depthAfter_actions (this : ClassName) {site : Option Label} {i : Instruction}
    (hsite : ∀ c, i = .new c → site ≠ none) (depth : Int) :
    (i.actions this site).foldl Action.depthAfter depth = depth + i.effect := by
  cases i with
  -- without a site the actions of a `new` only fail
  | new c =>
    cases site with
    | none => exact absurd rfl (hsite c rfl)
    | some l => rfl
  | invoke kind m =>
    rw [actions, List.foldl_append, List.foldl_append, Action.depthAfter_takeArguments,
      Action.depthAfter_takeReceiver, Action.depthAfter_pushResult, effect]
    omega
  | invokeDynamic d =>
    rw [actions, List.foldl_append, Action.depthAfter_takeArguments,
      Action.depthAfter_pushResult, effect]
    omega
  | newMultiArray t n =>
    rw [actions, List.foldl_append, Action.depthAfter_replicate, effect]
    show depth - n.toNat + 1 = _
    omega
  | putStatic f =>
    rw [actions, List.foldl_cons, List.foldl_nil, Action.depthAfter_takeField, effect]
    omega
  | putField f =>
    rw [actions, List.foldl_cons, Action.depthAfter_takeField, effect]
    show depth - width f.descriptor - 1 = _
    omega
  | getStatic f => exact congrArg (depth + ·) (congrArg _ (VType.width_ofField f.descriptor))
  | getField f =>
    rw [effect, ← VType.width_ofField]
    show depth - 1 + width (VType.ofField f.descriptor) = _
    omega
  | load kind slot => cases kind <;> rfl
  | store kind slot => cases kind <;> rfl
  | arrayLoad kind =>
    cases kind with
    | reference =>
      show depth - 1 = depth + (1 - 2)
      omega
    | _ =>
      simp only [actions, List.foldl, Action.depthAfter, Action.takeExactly, Check.words, effect,
        width_integer]
      omega
  | arrayStore kind =>
    cases kind with
    | reference =>
      show depth - 1 - 1 - 1 = depth + (-1 - 2)
      omega
    | _ =>
      simp only [actions, List.foldl, Action.depthAfter, Action.takeExactly, Check.words, effect,
        width_integer]
      omega
  | _ =>
    simp only [actions, List.foldl, Action.depthAfter, Action.takeExactly, Check.words, effect,
      width_integer, width_float, width_long, width_double, width_object] <;>
    omega

/-- Words that an instruction makes the locals reach to. -/
def Instruction.reach? : Instruction → Option Nat
  | store kind slot => some (slot.toNat + kind.words)
  | _ => none

/-- The actions of an instruction make the locals as long as it reaches. -/
theorem Instruction.wordsAfter_actions (this : ClassName) (site : Option Label) (i : Instruction)
    (words : Nat) :
    (i.actions this site).foldl Action.wordsAfter words = (i.reach?.map (max words)).getD words := by
  cases i with
  | store kind slot => cases kind <;> rfl
  | load kind slot => cases kind <;> rfl
  | arrayLoad kind => cases kind <;> rfl
  | arrayStore kind => cases kind <;> rfl
  | new c => cases site <;> rfl
  | putStatic f => exact Action.wordsAfter_takeField f.descriptor words
  | putField f => exact Action.wordsAfter_takeField f.descriptor words
  | newMultiArray t n =>
    -- as many checks as there are dimensions, so not a list of fixed length
    refine Action.foldl_wordsAfter (fun a ha words => ?_) words
    rcases List.mem_append.mp ha with ha | ha
    · rw [List.eq_of_mem_replicate ha]
      rfl
    · rw [List.mem_singleton.mp ha]
      rfl
  | invoke kind m =>
    rw [actions, List.foldl_append, List.foldl_append, Action.wordsAfter_takeArguments,
      Action.wordsAfter_takeReceiver, Action.wordsAfter_pushResult]
    rfl
  | invokeDynamic d =>
    rw [actions, List.foldl_append, Action.wordsAfter_takeArguments, Action.wordsAfter_pushResult]
    rfl
  | _ => rfl

/-- Words added to the stack. Marks add none. -/
def Node.effect : Node → Int
  | label _ | frame _ => 0
  | insn i => i.effect
  | branch b => b.effect

/-- The words on the stack after a node is passed. What is thrown is alone there. -/
def Node.depthAfter (depth : Int) : Node → Int
  | branch .throw => 1
  | node => depth + node.effect

/-- Run on numbers, the actions of a branch give the depth of the table. -/
theorem Branch.depthAfter_actions (result : Option FieldType) (b : Branch) (depth : Int) :
    (b.actions result).foldl Action.depthAfter depth = (Node.branch b).depthAfter depth := by
  cases b with
  -- the value is taken before its type is compared with the declared one
  | returnValue kind =>
    cases kind with
    | number k =>
      rw [actions, List.foldl_cons, Action.depthAfter_expectResult]
      rfl
    | reference =>
      rw [actions, List.foldl_cons, Action.depthAfter_expectResult]
      rfl
  | returnVoid =>
    rw [actions, Action.depthAfter_expectResult]
    show depth = depth + 0
    omega
  | ifInts test target =>
    show depth - 1 - 1 = depth + -2
    omega
  | goto target =>
    show depth = depth + 0
    omega
  | jsr target =>
    show depth = depth + 0
    omega
  | ret slot =>
    show depth = depth + 0
    omega
  | _ => rfl

theorem Branch.wordsAfter_actions (result : Option FieldType) (b : Branch) (words : Nat) :
    (b.actions result).foldl Action.wordsAfter words = words := by
  cases b with
  | returnValue kind =>
    cases kind with
    | number k =>
      rw [actions, List.foldl_cons, Action.wordsAfter_expectResult]
      rfl
    | reference =>
      rw [actions, List.foldl_cons, Action.wordsAfter_expectResult]
      rfl
  | returnVoid => rw [actions, Action.wordsAfter_expectResult]
  | _ => rfl

/-- A branch that control goes on from adds its effect. -/
theorem Node.depthAfter_of_ne_throw {node : Node} (h : node ≠ .branch .throw) (depth : Int) :
    node.depthAfter depth = depth + node.effect := by
  unfold depthAfter
  split
  · exact absurd rfl h
  · rfl

namespace Frame

variable {f f' : Frame} {this : ClassName} {site : Option Label} {i : Instruction} {b : Branch}
  {result : Option FieldType}

/-- An instruction that executes adds its effect. -/
theorem stackWords_execute (h : f.execute this site i = .ok f') :
    (f'.stackWords : Int) = f.stackWords + i.effect := by
  rw [(words_perform h).1]
  refine Instruction.depthAfter_actions this (fun c hi hsite => ?_) _
  -- without a label in front of it an allocation fails
  rw [hi, hsite] at h
  cases h

/-- An instruction that executes makes the locals as long as it reaches. -/
theorem words_execute (h : f.execute this site i = .ok f') :
    f'.locals.words = (i.reach?.map (max f.locals.words)).getD f.locals.words := by
  rw [(words_perform h).2, Instruction.wordsAfter_actions]

/-- A branch that executes adds its effect, and what it throws is alone on the stack. -/
theorem stackWords_executeBranch (h : f.executeBranch result b = .ok f') :
    (f'.stackWords : Int) = (Node.branch b).depthAfter f.stackWords := by
  rw [(words_perform h).1, Branch.depthAfter_actions]

/-- A branch that executes leaves the locals as long as they were. -/
theorem words_executeBranch (h : f.executeBranch result b = .ok f') :
    f'.locals.words = f.locals.words := by
  rw [(words_perform h).2, Branch.wordsAfter_actions]

end Frame

end JvmFrames
