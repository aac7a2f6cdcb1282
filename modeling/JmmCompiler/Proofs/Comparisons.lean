import Mathlib
import JmmCompiler.Proofs.LoweredCode
import JmmCompiler.Proofs.Resolution
/-! Comparisons as conditions and as values. A condition wants integers of both sides and a value wants what the other
side is, so that the two give the same code unless something unknown is compared with what is known and no integer. -/
namespace JmmCompiler

namespace SymbolTable
variable (t : SymbolTable) (method : String)

/-- The sides of a comparison, one after the other, as a condition wants them. -/
def lowerSides (left right : Node) : Lower (Lowered × Lowered) := do
  let leftValue ← t.lower method (some .int) left
  let rightValue ← t.lower method (some .int) right
  return (leftValue, rightValue)

/-- Sides whose types are both known, or else unknown beside unknown or integers. -/
def Balanced (left right : Ty) : Prop :=
  (left = .any → right = .any ∨ right = .int) ∧ (right = .any → left = .any ∨ left = .int)

/-- The same computations give the sides of a comparison to a jump and to a temporary, and they come to an end. -/
structure LowersAlike (op : String) (left right e : Node) : Prop where
  ends : (t.lowerSides method left right).Succeeds fun _ => True
  condition : ∀ label, t.lowerBranch method e label = do
    let (l, r) ← t.lowerSides method left right
    return l.computation ++ r.computation ++ [.branch (.binary op l.code r.code .boolean) label]
  value : ∀ expected, t.lower method expected e = do
    let (l, r) ← t.lowerSides method left right
    intoTemp (l.computation ++ r.computation) .boolean (.binary op l.code r.code .boolean)

/-- A comparison has two sides with types, and is lowered alike in both positions if they are balanced. -/
def ComparesAlike (e : Node) : Prop :=
  ∀ op c, e.kind = .binary → e.op = .ok op → Operator.ofSymbol? op = some (.comparison c) →
    ∃ left right leftType rightType, e.children = [left, right] ∧
      t.typeOf (some method) left = .ok leftType ∧ t.typeOf (some method) right = .ok rightType ∧
      (Balanced leftType rightType → t.LowersAlike method op left right e)

theorem lowerBranch_comparison {op : String} {c : Comparison} (hop : Operator.ofSymbol? op = some (.comparison c))
    (left right : Node) (p : Position) (label : String) :
    t.lowerBranch method ⟨.binary, ⟨[("op", .text op)]⟩, [left, right], p⟩ label = do
      let (l, r) ← t.lowerSides method left right
      return l.computation ++ r.computation ++ [.branch (.binary op l.code r.code .boolean) label] := by
  rw [lowerBranch_compare _ _ _ (Operator.comparison_ofSymbol hop)]
  simp [lowerSides]

end SymbolTable

namespace Typed
variable {s : Context} {e left right : Node} {type leftType rightType : Ty} {expected expected' : Option Ty}

/-- What is wanted of an expression of a known type does not matter to its code, except that a call of an unknown method
that is named as the length of an array is wanted as its value is. -/
theorem lower_eq (h : Typed s e type) (hknown : type ≠ .any)
    (hint : type = .int → SymbolTable.askedType expected = SymbolTable.askedType expected') :
    s.table.lower s.method expected e = s.table.lower s.method expected' e := by
  -- by the kind of the expression: an element is known when its array is, and every other part is wanted alike
  induction h generalizing expected expected' with
  | intLiteral i p => rfl
  | boolLiteral b p => rfl
  | varRef h p => rfl
  | thisRef h p => rfl
  | paren hinner p ih => exact ih hknown hint
  | newObject name hname p => rfl
  | newArray name hsize hsizeType hname p ih => rfl
  | emptyLiteral p => rfl
  | arrayLiteral helements hfit hadmits p ih => rfl
  | gatheredLiteral name helements hfit hadmits hname p ih => rfl
  | @arrayAccess array index type indexType harray hindex htype hindexType hstrict p ih ihindex =>
    have hany : type ≠ .any := by
      rintro rfl
      exact hknown rfl
    have hisArray := htype.resolve_left hany
    have hne : type ≠ .int := by
      rintro rfl
      cases hisArray
    rw [SymbolTable.lower_arrayAccess, SymbolTable.lower_arrayAccess, ih hany fun h => absurd h hne]
  | length harray htype p ih => rfl
  | unary hoperand hboolean p ih => rfl
  | @binary op o left right leftType rightType hop hleft hright halike hwanted hadmits p ihl ihr =>
    by_cases hand : op = "&&"
    · subst hand
      rw [SymbolTable.lower_and, SymbolTable.lower_and]
    · rw [SymbolTable.lower_binary _ _ _ _ hop hand, SymbolTable.lower_binary _ _ _ _ hop hand]
  | @ownCall name m receiver args types hm hreceiver hargs haccepts p ihr iha =>
    have hown : s.table.isOwnCall (some s.method) name receiver = .ok true :=
      s.table.isOwnCall_of_method _ hm hreceiver.typeOf
    obtain ⟨isClass, hclass, -⟩ := hreceiver.exists_isClassReceiver
    rw [SymbolTable.lower_call _ _ _ _ hown hreceiver.typeOf hclass, SymbolTable.lower_call _ _ _ _ hown hreceiver.typeOf hclass]
    rfl
  | @lengthCall receiver type hreceiver hother harray p ih =>
    obtain ⟨isClass, hclass, -⟩ := hreceiver.exists_isClassReceiver
    have hown := isOwnCall_of_other hreceiver hother
    rw [SymbolTable.lower_call _ _ _ _ hown hreceiver.typeOf hclass, SymbolTable.lower_call _ _ _ _ hown hreceiver.typeOf hclass,
      if_pos (by simp [harray]), if_pos (by simp [harray])]
  | @foreignCall name receiver receiverType args types hreceiver hother hlength himports hargs hadmits p ihr iha =>
    obtain ⟨isClass, hclass, -⟩ := hreceiver.exists_isClassReceiver
    have hown := isOwnCall_of_other hreceiver hother
    have hasked := hint ((Context.foreign_cases name args).resolve_left hknown)
    have hsignature : s.table.callSignature expected false name = s.table.callSignature expected' false name :=
      congrArg (fun type => Except.ok (type, [])) hasked
    rw [SymbolTable.lower_call _ _ _ _ hown hreceiver.typeOf hclass, SymbolTable.lower_call _ _ _ _ hown hreceiver.typeOf hclass,
      hsignature]
  | @importCall name imported args types hreceiver hother hargs hadmits p q iha =>
    have hown := hreceiver.isOwnCall (p := q) hother
    have hasked := hint ((Context.foreign_cases name args).resolve_left hknown)
    have hsignature : s.table.callSignature expected false name = s.table.callSignature expected' false name :=
      congrArg (fun type => Except.ok (type, [])) hasked
    rw [SymbolTable.lower_call _ _ _ _ hown hreceiver.typeOf hreceiver.isClassReceiver,
      SymbolTable.lower_call _ _ _ _ hown hreceiver.typeOf hreceiver.isClassReceiver, hsignature]

/-- A side of a comparison may as well be wanted as an integer, unless it is unknown beside what is no integer. -/
theorem lower_hint (h : Typed s e leftType) (c : Comparison) (halike : leftType = .any ∨ rightType = .any ∨ leftType = rightType)
    (hbalanced : leftType = .any → rightType = .any ∨ rightType = .int) :
    s.table.lower s.method (some ((Operator.comparison c).hint rightType)) e = s.table.lower s.method (some .int) e := by
  by_cases hint : (Operator.comparison c).hint rightType = .int
  · rw [hint]
  · have hright : rightType ≠ .any ∧ rightType ≠ .int := by
      constructor <;> rintro rfl <;> cases c <;> exact hint rfl
    have hleft : leftType ≠ .any := fun hany => (hbalanced hany).elim hright.1 hright.2
    have hsame := (halike.resolve_left hleft).resolve_left hright.1
    exact h.lower_eq hleft fun hleftInt => absurd (hsame.symm.trans hleftInt) hright.2

/-- A balanced comparison is lowered alike as a condition and as a value. -/
theorem lowersAlike {op : String} {c : Comparison} {p : Position} (hop : Operator.ofSymbol? op = some (.comparison c))
    (hleft : Typed s left leftType) (hright : Typed s right rightType) (halike : Ty.assignable leftType rightType = true)
    (hbalanced : SymbolTable.Balanced leftType rightType) :
    s.table.LowersAlike s.method op left right ⟨.binary, ⟨[("op", .text op)]⟩, [left, right], p⟩ where
  ends := (hleft.succeeds_lower _).bind fun _ _ => (hright.succeeds_lower _).bind fun _ _ => .pure trivial
  condition := s.table.lowerBranch_comparison s.method hop left right p
  value expected := by
    have hand : op ≠ "&&" := by
      rintro rfl
      simp [Operator.ofSymbol?] at hop
    have hcases : leftType = .any ∨ rightType = .any ∨ leftType = rightType := by
      simpa [Ty.assignable, or_assoc] using halike
    have hok {α β : Type} (a : α) (f : α → Lower β) : (liftM (Except.ok a : Except Failure α) >>= f) = f a := rfl
    rw [SymbolTable.lower_binary _ _ _ _ hop hand, SymbolTable.operandHint_eq hop hright.typeOf,
      SymbolTable.operandHint_eq hop hleft.typeOf, hok, hleft.lower_hint c hcases hbalanced.1]
    simp only [hok]
    rw [hright.lower_hint c (hcases.elim (fun h => .inr (.inl h)) fun h => h.elim .inl fun h => .inr (.inr h.symm)) hbalanced.2]
    simp [SymbolTable.lowerSides, Operator.resultType]

theorem comparesAlike (h : Typed s e type) : s.table.ComparesAlike s.method e := by
  intro op c hkind hop hcomparison
  cases h with
  | @binary op' o left right leftType rightType hop' hleft hright halike hwanted hadmits p =>
    obtain rfl : op' = op := Except.ok.inj hop
    exact ⟨left, right, leftType, rightType, rfl, hleft.typeOf, hright.typeOf, hleft.lowersAlike hcomparison hright halike⟩
  | _ => cases hkind

end Typed

namespace Node

/-- In a program that is analyzed without reports, every comparison between balanced sides is lowered alike as a
condition and as a value. -/
theorem comparisons_lower_alike {source : String} {root : Node} {table : SymbolTable}
    (hparse : Node.parse source = .ok root)
    (hanalyze : root.analyze = .ok { reports := [], table := some table }) :
    ∃ c, root.classDecl = .ok c ∧ ∀ decl ∈ c.childrenOf [.methodDecl], ∃ m,
      MethodInfo.ofNode decl = .ok m ∧ table.method? m.name = some m ∧
        ∀ n ∈ decl.statements, n.Everywhere (table.ComparesAlike m.name) := by
  have haccepted := accepted_of_analyze hparse hanalyze
  obtain ⟨i, c, hc, -, -⟩ := haccepted.shape.exists_class
  refine ⟨c, hc, fun decl hdecl => ?_⟩
  obtain ⟨m, -, hm⟩ := exists_of_mapM (haccepted.table_eq hc).2 hdecl
  have hdeclares := haccepted.declares hc hdecl hm
  refine ⟨m, hm, hdeclares.found, fun n hn => ?_⟩
  have hparts := (hdeclares.shaped n hn).everywhere_isPart
  refine ((hdeclares.clears n hn).everywhere.and hparts).imp fun e he op c hkind => ?_
  obtain ⟨type, htype⟩ := hdeclares.typed he.1 (SymbolTable.Declares.isExpression_of_kind he.2 (by rw [hkind]; rfl))
  exact htype.comparesAlike op c hkind

/-- A condition that compares two variables, and one that compares an integer with the result of an import. -/
theorem comparisons_lower_alike_loop :
    ∃ root table c, Node.parse "import Io;class A\x7bint f(int b)\x7bwhile(b<Io.go())if(b==1)b=b+1;return b;\x7d\x7d" =
        .ok root ∧ root.analyze = .ok { reports := [], table := some table } ∧ root.classDecl = .ok c ∧
      (c.childrenOf [.methodDecl]).length = 1 ∧ ∀ decl ∈ c.childrenOf [.methodDecl], ∃ m,
        MethodInfo.ofNode decl = .ok m ∧ table.method? m.name = some m ∧
          ∀ n ∈ decl.statements, n.Everywhere (table.ComparesAlike m.name) := by
  obtain ⟨root, hroot, hfacts⟩ := exists_of_toOption
    (show (Node.parse "import Io;class A\x7bint f(int b)\x7bwhile(b<Io.go())if(b==1)b=b+1;return b;\x7d\x7d").toOption.map
      (fun root => (root.analyze, root.classDecl.toOption.map fun c => (c.childrenOf [.methodDecl]).length)) =
        some (.ok { reports := [], table := some ⟨"A", none, ["Io"], [],
          [⟨"f", .int, [⟨"b", .int⟩], [], false, false, false⟩]⟩ }, some 1) by decide +kernel)
  obtain ⟨hanalyze, hlength⟩ := Prod.mk.inj hfacts
  obtain ⟨c, hc, hcompares⟩ := comparisons_lower_alike hroot hanalyze
  rw [hc] at hlength
  exact ⟨root, _, c, hroot, hanalyze, hc, Option.some.inj hlength, hcompares⟩

/-- A call of an import that is compared with a truth value gives one where the comparison is a value, and an integer
where it is a condition. -/
theorem compared_import :
    ∃ root table code, Node.parse "import Io;class A\x7bboolean f()\x7bif(Io.go()==true)return true;return Io.go()==true;\x7d\x7d" =
        .ok root ∧ root.analyze = .ok { reports := [], table := some table } ∧ table.generate root = .ok code ∧
      code.methods.map (·.code) =
        [[.assign (.var "tmp0" .int) (.call .static (.classRef "Io" ⟨"Io", false⟩) (some "go") [] .int),
          .branch (.binary "==" (.var "tmp0" .int) (.literal 1 .boolean) .boolean) "if_then_0",
          .goto "if_end_0", .ret (.literal 1 .boolean) .boolean,
          .assign (.var "tmp1" .boolean) (.call .static (.classRef "Io" ⟨"Io", false⟩) (some "go") [] .boolean),
          .assign (.var "tmp2" .boolean) (.binary "==" (.var "tmp1" .boolean) (.literal 1 .boolean) .boolean),
          .ret (.var "tmp2" .boolean) .boolean]] := by
  obtain ⟨root, hroot, hfacts⟩ := exists_of_toOption (show (Node.parse
      "import Io;class A\x7bboolean f()\x7bif(Io.go()==true)return true;return Io.go()==true;\x7d\x7d").toOption.map
      (fun root => (root.analyze, (root.analyze.toOption.bind (·.table)).bind fun t =>
        (t.generate root).toOption.map fun code => code.methods.map (·.code))) =
        some (.ok { reports := [], table := some ⟨"A", none, ["Io"], [], [⟨"f", .boolean, [], [], false, false, false⟩]⟩ },
          some [[.assign (.var "tmp0" .int) (.call .static (.classRef "Io" ⟨"Io", false⟩) (some "go") [] .int),
            .branch (.binary "==" (.var "tmp0" .int) (.literal 1 .boolean) .boolean) "if_then_0",
            .goto "if_end_0", .ret (.literal 1 .boolean) .boolean,
            .assign (.var "tmp1" .boolean) (.call .static (.classRef "Io" ⟨"Io", false⟩) (some "go") [] .boolean),
            .assign (.var "tmp2" .boolean) (.binary "==" (.var "tmp1" .boolean) (.literal 1 .boolean) .boolean),
            .ret (.var "tmp2" .boolean) .boolean]]) by decide +kernel)
  obtain ⟨hanalyze, hcode⟩ := Prod.mk.inj hfacts
  rw [hanalyze] at hcode
  obtain ⟨code, hgenerate, hmethods⟩ := exists_of_toOption hcode
  exact ⟨root, _, code, hroot, hanalyze, hgenerate, hmethods⟩

end Node
end JmmCompiler
