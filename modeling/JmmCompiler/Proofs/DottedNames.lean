import JmmCompiler.Proofs.Lexing
import JmmCompiler.SymbolTable
/-! Names of imports: segments with dots between them. The last segment is the simple name. -/
namespace JmmCompiler

/-- The parts of a dotted name. -/
def segments (name : String) : List String := (name.toList.splitOn '.').map String.ofList

theorem Lexeme.IsName.dot_notMem {name : String} (h : Lexeme.IsName name) : '.' ∉ name.toList :=
  fun hdot => absurd (h.1.isWordPart _ hdot) (by decide)

/-- The segments of words with dots between them are the words. -/
theorem segments_intercalate {names : List String} (hnames : ∀ name ∈ names, Lexeme.IsName name) (hne : names ≠ []) :
    segments (String.intercalate "." names) = names := by
  have hsplit : (['.'].intercalate (names.map String.toList)).splitOn '.' = names.map String.toList := by
    refine List.splitOn_intercalate '.' (fun l hl => ?_) (by simpa using hne)
    obtain ⟨name, hname, rfl⟩ := List.mem_map.1 hl
    exact (hnames name hname).dot_notMem
  have htext : (String.intercalate "." names).toList = ['.'].intercalate (names.map String.toList) :=
    String.toList_intercalate ..
  rw [segments, htext, hsplit, List.map_map]
  simp [Function.comp_def]

/-! ## Simple names -/

theorem simpleName_of_notMem {name : String} (h : '.' ∉ name.toList) : simpleName name = name := by
  have hall : name.toList.reverse.takeWhile (· ≠ '.') = name.toList.reverse := by
    refine List.takeWhile_eq_self_iff.2 fun d hd => ?_
    rw [decide_eq_true_eq]
    rintro rfl
    exact h (List.mem_reverse.1 hd)
  rw [simpleName, hall, List.reverse_reverse, String.ofList_toList]

/-- A name is split at its last dot. -/
theorem exists_last_dot {xs : List Char} (h : '.' ∈ xs) : ∃ front last, xs = front ++ '.' :: last ∧ '.' ∉ last := by
  obtain ⟨as, bs, heq, hfree⟩ := List.eq_append_cons_of_mem (List.mem_reverse.2 h)
  refine ⟨bs.reverse, as.reverse, ?_, fun hmem => hfree (List.mem_reverse.1 hmem)⟩
  simpa using congrArg List.reverse heq

theorem simpleName_of_toList {name : String} {front last : List Char} (h : name.toList = front ++ '.' :: last)
    (hlast : '.' ∉ last) : simpleName name = String.ofList last := by
  have hall : ∀ c ∈ last.reverse, decide (c ≠ '.') = true := by
    intro c hc
    rw [decide_eq_true_eq]
    rintro rfl
    exact hlast (List.mem_reverse.1 hc)
  rw [simpleName, h, List.reverse_append, List.reverse_cons, List.append_assoc, List.takeWhile_append_of_pos hall]
  simp

/-- The simple name is the last segment. -/
@[simp] theorem getLast?_segments (name : String) : (segments name).getLast? = some (simpleName name) := by
  have hsingle {xs : List Char} (hxs : '.' ∉ xs) : xs.splitOnP (· == '.') = [xs] :=
    List.splitOnP_eq_singleton fun c hc => beq_false_of_ne fun heq => hxs (heq ▸ hc)
  by_cases hdot : '.' ∈ name.toList
  · obtain ⟨front, last, htext, hlast⟩ := exists_last_dot hdot
    rw [segments, List.splitOn, htext, List.splitOnP_append_cons front last (by simp), hsingle hlast,
      simpleName_of_toList htext hlast]
    simp
  · rw [segments, List.splitOn, hsingle hdot, simpleName_of_notMem hdot]
    simp

theorem SymbolTable.isImported_iff {t : SymbolTable} {name : String} (hname : '.' ∉ name.toList) :
    t.isImported name = true ↔ name ∈ t.importNames := by
  rw [isImported, Bool.or_eq_true, List.contains_iff_mem, List.contains_iff_mem, or_iff_right_iff_imp]
  exact fun hfull => List.mem_map.2 ⟨name, hfull, simpleName_of_notMem hname⟩

end JmmCompiler
