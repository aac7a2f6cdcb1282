import JmmCompiler.Proofs.NormalCalls
/-! The rewriting that gathers arguments in arrays gathers those that a call passes in an array. -/
namespace JmmCompiler
namespace SymbolTable
variable {t : SymbolTable} {method : String} {attributes : Assoc Attribute} {receiver receiver' n n' : Node}
  {args args' : List Node} {p : Position}

/-- A call that passes its arguments one by one stays as it is, and one that passes the last ones in an array is given the
array. -/
theorem packing_of_normalizeCall
    (h : t.normalizeCall (some method) ⟨.call, attributes, receiver :: args, p⟩ = .ok n') :
    ∃ packing, t.packing? method ⟨.call, attributes, receiver :: args, p⟩ = .ok packing ∧
      (packing = none ∧ n' = ⟨.call, attributes, receiver :: args, p⟩ ∨ ∃ fixed element, packing = some (fixed, element) ∧
        n' = ⟨.call, attributes, receiver :: (args.take fixed ++
          [⟨.arrayLiteral, ⟨[("element_type", .text element)]⟩, args.drop fixed, p⟩]), p⟩) := by
  obtain ⟨receiver, args, hcs, ⟨m, hown⟩ | hother⟩ := callsOwn_or_callsOther h
  · obtain ⟨rfl, rfl⟩ := List.cons.inj hcs
    rw [normalizeCall_own hown] at h
    simp only [bind_eq_ok, pure_eq_ok] at h
    obtain ⟨gathered, hgathered, rfl⟩ := h
    rw [packing?_own hown, hgathered, ok_bind]
    cases gathered with
    | none => exact ⟨none, rfl, .inl ⟨rfl, rfl⟩⟩
    | some last => exact ⟨_, rfl, .inr ⟨_, _, rfl, rfl⟩⟩
  · obtain ⟨rfl, rfl⟩ := List.cons.inj hcs
    rw [normalizeCall_other hother] at h
    exact ⟨none, packing?_other hother, .inl ⟨rfl, (Except.ok.inj h).symm⟩⟩

/-- How a call passes its arguments depends on their kinds and types, and on the type of the receiver. -/
theorem packing?_congr (hreceiver : t.typeOf (some method) receiver' = t.typeOf (some method) receiver)
    (hargs : List.Forall₂ (fun e e' => e'.kind = e.kind ∧ t.typeOf (some method) e' = t.typeOf (some method) e)
      args args') :
    t.packing? method ⟨.call, attributes, receiver' :: args', p⟩ =
      t.packing? method ⟨.call, attributes, receiver :: args, p⟩ := by
  have hname : Node.name ⟨.call, attributes, receiver' :: args', p⟩ =
      Node.name ⟨.call, attributes, receiver :: args, p⟩ := rfl
  have hchild : Node.child ⟨.call, attributes, receiver' :: args', p⟩ 0 = .ok receiver' := rfl
  have hchild' : Node.child ⟨.call, attributes, receiver :: args, p⟩ 0 = .ok receiver := rfl
  unfold packing?
  simp only [hname, hchild, hchild', ok_bind, List.tail_cons, isOwnReceiver_congr hreceiver, hargs.length_eq]
  refine congrArg _ (funext fun name => ?_)
  cases t.method? name with
  | none => rfl
  | some m =>
    refine congrArg (_ >>= ·) (funext fun own => ?_)
    generalize (if m.isVarargs = true then m.params.getLast? else none) = rest
    cases rest with
    | none => rfl
    | some last =>
      have hdrop := List.forall₂_drop (m.params.length - 1) hargs
      dsimp only
      generalize args.drop (m.params.length - 1) = gathered at hdrop ⊢
      generalize args'.drop (m.params.length - 1) = gathered' at hdrop ⊢
      rcases hdrop with _ | ⟨⟨hkind, htype⟩, _ | ⟨hnext, hmore⟩⟩
      · rfl
      · simp only [hkind, htype]
      · rfl

/-- What becomes of a call: its receiver and its arguments are rewritten, and those arguments are gathered that it passes
in an array. -/
theorem parts_of_normalizeVarargs
    (h : t.normalizeVarargs (some method) ⟨.call, attributes, receiver :: args, p⟩ = .ok n') :
    ∃ receiver' args' packing, t.normalizeVarargs (some method) receiver = .ok receiver' ∧
      List.Forall₂ (fun e e' => t.normalizeVarargs (some method) e = .ok e') args args' ∧
      t.packing? method ⟨.call, attributes, receiver :: args, p⟩ = .ok packing ∧
      (packing = none ∧ n' = ⟨.call, attributes, receiver' :: args', p⟩ ∨ ∃ fixed element, packing = some (fixed, element) ∧
        n' = ⟨.call, attributes, receiver' :: (args'.take fixed ++
          [⟨.arrayLiteral, ⟨[("element_type", .text element)]⟩, args'.drop fixed, p⟩]), p⟩) := by
  obtain ⟨below, cs', hbelow, hcs, hcall⟩ := normalizeVarargs_eq_ok.1 h
  obtain rfl : some method = below := Except.ok.inj hbelow
  rcases mapM_eq_ok_iff.1 hcs with _ | ⟨hreceiver, hargs⟩
  rename_i receiver' args'
  obtain ⟨packing, hpacking, hn'⟩ := packing_of_normalizeCall hcall
  refine ⟨receiver', args', packing, hreceiver, hargs, ?_, hn'⟩
  rw [← hpacking]
  refine (packing?_congr (typeOf_normalizeVarargs hreceiver) (hargs.imp fun e e' he => ?_)).symm
  exact ⟨(kind_normalizeVarargs he).1, typeOf_normalizeVarargs he⟩

end SymbolTable
end JmmCompiler
