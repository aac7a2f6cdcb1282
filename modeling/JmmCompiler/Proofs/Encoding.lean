import JmmCompiler.Jasmin.Descriptor
import JmmCompiler.Proofs.StackMachine
import Std.Data.String.ToInt
/-! The short forms of constants and slots, and descriptors, read as what they were written for. -/
namespace JmmCompiler.Jasmin

theorem after?_append (start rest : String) : after? start (start ++ rest) = some rest := by
  simp [after?, String.toList_append]

theorem after?_of_head_ne {start text : String} {a b : Char} {as bs : List Char}
    (hs : start.toList = a :: as) (ht : text.toList = b :: bs) (hne : a ≠ b) :
    after? start text = none := by
  simp [after?, hs, ht, hne]

/-- A mnemonic is no beginning of a text that begins with another character. -/
theorem after?_append_of_ne {start mnemonic rest : String} {a b : Char} {as bs : List Char}
    (hs : start.toList = a :: as) (hm : mnemonic.toList = b :: bs) (hne : a ≠ b) :
    after? start (mnemonic ++ rest) = none := by
  have htext : (mnemonic ++ rest).toList = b :: (bs ++ rest.toList) := by
    rw [String.toList_append, hm]
    rfl
  exact after?_of_head_ne hs htext hne

theorem readConst_iconst {n : Int} (h : 0 ≤ n ∧ n ≤ 5) :
    readConst ("iconst_" ++ toString n) = some n := by
  have hdigits : toString n ≠ "m1" := by
    obtain rfl | rfl | rfl | rfl | rfl | rfl : n = 0 ∨ n = 1 ∨ n = 2 ∨ n = 3 ∨ n = 4 ∨ n = 5 := by
      omega
    all_goals decide +kernel
  unfold readConst
  rw [after?_append]
  split
  · rename_i heq
    exact absurd (Option.some.inj heq) hdigits
  · rename_i heq
    obtain rfl := Option.some.inj heq
    simpa using h
  · contradiction

theorem readConst_bipush {n : Int} (h : fitsByte n) : readConst ("bipush " ++ toString n) = some n := by
  unfold readConst
  rw [after?_append_of_ne (a := 'i') (b := 'b') rfl rfl (by decide), after?_append]
  simp [h]

theorem readConst_sipush {n : Int} (h : fitsShort n) :
    readConst ("sipush " ++ toString n) = some n := by
  unfold readConst
  rw [after?_append_of_ne (a := 'i') (b := 's') rfl rfl (by decide),
    after?_append_of_ne (a := 'b') (b := 's') rfl rfl (by decide), after?_append]
  simp [h]

/-- The form of the largest constants holds 32 bits. -/
theorem readConst_ldc (n : Int) : readConst ("ldc " ++ toString n) = if fitsWord n then some n else none := by
  unfold readConst
  rw [after?_append_of_ne (a := 'i') (b := 'l') rfl rfl (by decide),
    after?_append_of_ne (a := 'b') (b := 'l') rfl rfl (by decide),
    after?_append_of_ne (a := 's') (b := 'l') rfl rfl (by decide), after?_append]
  cases h : fitsWord n <;> simp [h]

/-- Every form of a constant of 32 bits stands for that constant. -/
theorem readConst_body {n : Int} (h : fitsWord n) : readConst (Line.const n).body = some n := by
  simp only [Line.body, constText]
  by_cases hm1 : n = -1
  · subst hm1
    decide +kernel
  · rw [if_neg hm1]
    by_cases hsmall : 0 ≤ n ∧ n ≤ 5
    · rw [if_pos hsmall]
      exact readConst_iconst hsmall
    · rw [if_neg hsmall]
      by_cases hbyte : fitsByte n
      · rw [if_pos hbyte]
        exact readConst_bipush hbyte
      · rw [if_neg hbyte]
        by_cases hshort : fitsShort n
        · rw [if_pos hshort]
          exact readConst_sipush hshort
        · rw [if_neg hshort]
          rw [readConst_ldc, if_pos h]

/-- Both forms of a slot stand for that slot. -/
theorem readSlot_body {n : Int} (h : 0 ≤ n) (op : SlotOp) :
    readSlot op (Line.slot op n).body = some n := by
  simp only [Line.body, String.append_assoc, readSlot, after?_append, Option.bind_some]
  by_cases hsmall : n ≤ 3
  · rw [if_pos hsmall, after?_append]
    simp [h, hsmall]
  · rw [if_neg hsmall, after?_append_of_ne (a := '_') (b := ' ') rfl rfl (by decide), after?_append]
    simp [h]

theorem countParams_inName {cs : List Char} (h : ';' ∉ cs) (count : Nat) (rest : List Char) :
    countParams true count (cs ++ ';' :: rest) = countParams false count rest := by
  induction cs with
  | nil => simp [countParams]
  | cons c cs ih =>
    obtain ⟨hc, hcs⟩ := not_or.1 (List.mem_cons.not.1 h)
    simp only [List.cons_append, countParams, if_true]
    rw [decide_eq_true (Ne.symm hc)]
    exact ih hcs

theorem countParams_baseDescriptor {imported : List String} {name : String}
    (h : ';' ∉ (internalName imported name).toList) (count : Nat) (rest : List Char) :
    countParams false count ((baseDescriptor imported name).toList ++ rest) =
      countParams false (count + 1) rest := by
  unfold baseDescriptor
  split
  · rfl
  · split
    · rfl
    · split
      · rfl
      · have hclass := countParams_inName h (count + 1) rest
        simp only [String.toList_append, List.append_assoc]
        exact hclass

/-- The descriptor of a type counts as one parameter if the name of its class has no semicolon. -/
theorem countParams_descriptor {imported : List String} {t : Ty}
    (h : ';' ∉ (internalName imported t.name).toList) (count : Nat) (rest : List Char) :
    countParams false count ((descriptor imported t).toList ++ rest) =
      countParams false (count + 1) rest := by
  unfold descriptor
  split
  · rw [String.toList_append, List.append_assoc]
    exact countParams_baseDescriptor h count rest
  · exact countParams_baseDescriptor h count rest

theorem countParams_descriptors {imported : List String} {ts : List Ty}
    (h : ∀ t ∈ ts, ';' ∉ (internalName imported t.name).toList) (count : Nat) (rest : List Char) :
    countParams false count ((String.join (ts.map (descriptor imported))).toList ++ ')' :: rest) =
      some (count + ts.length, rest) := by
  induction ts generalizing count with
  | nil => simp [countParams]
  | cons t ts ih =>
    rw [List.map_cons, String.join_cons, String.toList_append, List.append_assoc,
      countParams_descriptor (h t (by simp)), ih (fun u hu => h u (by simp [hu])), List.length_cons]
    congr 2
    omega

/-- Only void has the descriptor of void. -/
theorem descriptor_toList_eq_iff {imported : List String} {t : Ty} :
    (descriptor imported t).toList = ['V'] ↔ t = .void := by
  obtain ⟨name, isArray⟩ := t
  cases isArray with
  | true => simp [descriptor, Ty.void]
  | false =>
    simp only [descriptor, Bool.false_eq_true, if_false, baseDescriptor, Ty.void, Ty.mk.injEq, and_true]
    by_cases hint : name = "int"
    · subst hint
      simp
    · by_cases hbool : name = "boolean"
      · subst hbool
        simp
      · by_cases hvoid : name = "void"
        · subst hvoid
          simp
        · simp [hint, hbool, hvoid]

/-- A method descriptor tells the number of parameters, and whether the method gives a value. -/
theorem readDescriptor_methodDescriptor {imported : List String} {params : List Ty} {returnType : Ty}
    (h : ∀ t ∈ params, ';' ∉ (internalName imported t.name).toList) :
    readDescriptor (methodDescriptor imported params returnType) =
      some (params.length, decide (returnType ≠ .void)) := by
  have hcount := countParams_descriptors h 0 (descriptor imported returnType).toList
  have htext : (methodDescriptor imported params returnType).toList =
      '(' :: ((String.join (params.map (descriptor imported))).toList ++
        ')' :: (descriptor imported returnType).toList) := by
    simp [methodDescriptor, String.toList_append]
  simp only [readDescriptor, htext, hcount, Option.map_some, Nat.zero_add, ne_eq,
    descriptor_toList_eq_iff]

end JmmCompiler.Jasmin
