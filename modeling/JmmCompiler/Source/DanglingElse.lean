import JmmCompiler.Source.Statement
/-! Which `if` an `else` belongs to. A statement that starts with headers of `if` and `while` is read
as a chain of segments with an `else` between each two. The first `if` takes the last `else` of the
chain that leaves a complete statement on both of its sides, and both sides are resolved in the same
way; it goes without an `else` when there is none. -/
namespace JmmCompiler

inductive Header
  | ifHeader (position : Position) (condition : Node)
  | whileHeader (position : Position) (condition : Node)

/-- Headers, and the block or simple statement that they govern. -/
structure Segment where
  headers : List Header
  body : Statement

namespace Segment

def isIf : Header → Bool
  | .ifHeader .. => true
  | .whileHeader .. => false

/-- The number of `if` headers. -/
def ifs (s : Segment) : Nat := s.headers.countP isIf

/-- Every `else` of the chain finds an `if` before it that has none yet. `waiting` counts the `if`s
without `else` that come before the chain. -/
def complete (waiting : Nat) : List Segment → Bool
  | [] => true
  | [_] => true
  | s :: rest => 0 < waiting + s.ifs && complete (waiting + s.ifs - 1) rest

/-- All ways to cut a chain at a segment. -/
def cuts : List Segment → List (List Segment × Segment × List Segment)
  | [] => []
  | s :: rest => ([], s, rest) :: (cuts rest).map fun c => (s :: c.1, c.2)

theorem mem_cuts {chain before after : List Segment} {s : Segment} :
    (before, s, after) ∈ cuts chain ↔ chain = before ++ s :: after := by
  induction chain generalizing before with
  | nil => simp [cuts]
  | cons a rest ih =>
    simp only [cuts, List.mem_cons, List.mem_map, Prod.mk.injEq]
    constructor
    · rintro (⟨rfl, rfl, rfl⟩ | ⟨⟨b, t, e⟩, h, rfl, h'⟩)
      · rfl
      · cases h'
        simp [ih.1 h]
    · intro h
      cases before with
      | nil => simp_all
      | cons b bs =>
        simp only [List.cons_append, List.cons.injEq] at h
        exact .inr ⟨(bs, s, after), ih.2 h.2, by simp [h.1]⟩

/-- The last cut of `rest` whose sides are complete, where `first` stands in front of `rest`. -/
def lastCut? (first : Segment) (rest : List Segment) :
    Option (List Segment × Segment × List Segment) :=
  (cuts rest).reverse.find? fun c => complete 0 (first :: c.1) && complete 0 (c.2.1 :: c.2.2)

theorem eq_of_lastCut? {first s : Segment} {rest before after : List Segment}
    (h : lastCut? first rest = some (before, s, after)) : rest = before ++ s :: after :=
  mem_cuts.1 (List.mem_reverse.1 (List.mem_of_find?_eq_some h))

/-- The number of headers and segments. -/
def weight : List Segment → Nat
  | [] => 0
  | s :: rest => s.headers.length + 1 + weight rest

theorem weight_append (a b : List Segment) : weight (a ++ b) = weight a + weight b := by
  induction a with
  | nil => simp [weight]
  | cons s a ih =>
    rw [List.cons_append, weight, weight, ih]
    omega

/-- The statement that a chain stands for. -/
def resolve : Segment → List Segment → Statement
  | ⟨[], body⟩, _ => body
  | ⟨.whileHeader p c :: headers, body⟩, rest => .whileLoop p c (resolve ⟨headers, body⟩ rest)
  | ⟨.ifHeader p c :: headers, body⟩, rest =>
    match _h : lastCut? ⟨headers, body⟩ rest with
    | some (before, s, after) =>
      .ifElse p c (resolve ⟨headers, body⟩ before) (resolve s after)
    | none => .ifThen p c (resolve ⟨headers, body⟩ rest)
termination_by first rest => weight (first :: rest)
decreasing_by
  · simp only [weight, List.length_cons]
    omega
  · rw [eq_of_lastCut? _h]
    simp only [weight, weight_append, List.length_cons]
    omega
  · rw [eq_of_lastCut? _h]
    simp only [weight, weight_append, List.length_cons]
    omega
  · simp only [weight, List.length_cons]
    omega

end Segment
end JmmCompiler
