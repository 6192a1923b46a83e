import FormulaMachine.Proofs.Lexing.Identifiers
import FormulaMachine.Proofs.Session.Expressions
import FormulaMachine.Proofs.Session.Sweeps

/-!
What a name is. The outline of a source, the tokens and the prompt agree on it, except that some
names are reserved for the prompt.
-/
namespace FormulaMachine

theorem Token.lex_eq_identifier_iff (name : String) :
    lex name.toList = [identifier name] ↔ isName name.toList := by
  constructor
  · intro h
    have hmem : identifier name ∈ lex name.toList := by
      rw [h]
      exact List.mem_singleton_self _
    exact isName_of_mem_lex hmem
  · exact lex_of_isName

namespace Session

variable {s : Session} {name source : String}

theorem unbound_ne_notVariable (names name : String) :
    "UNBOUND: " ++ names ≠ s!"NOT A VARIABLE NAME: {name}" := by
  intro h
  have hhead := congrArg (·.toList.head?) h
  simp [toString] at hhead

theorem evaluate_ne_notVariable (s : Session) (source name : String) :
    (s.evaluate source).1 ≠ .error (.usage s!"NOT A VARIABLE NAME: {name}") := by
  intro h
  rcases evaluate_cases s source with
    ⟨reply, hc, hs⟩ | ⟨f, e, random, -, -, hs⟩ | ⟨f, r, random, -, -, hs⟩
  · rw [hs] at h
    cases h
    rcases compile_cases s.names source with ⟨e, -, hs⟩ | ⟨f, found, -, -, -, hs⟩ | ⟨f, -, -, hs⟩
    · cases hs.symm.trans hc
    · have hreply := Except.error.inj (hs.symm.trans hc)
      exact unbound_ne_notVariable _ name (Reply.usage.inj hreply)
    · cases hs.symm.trans hc
  · rw [hs] at h
    cases h
  · rw [hs] at h
    cases h

theorem assign_of_not_isVariableName (h : ¬ IsVariableName name) (s : Session) (source : String) :
    s.assign name source = (.usage s!"NOT A VARIABLE NAME: {name}", s) := by
  rw [assign, if_neg (fun hassignable => h ((isAssignable_iff name).mp hassignable))]

theorem assign_ne_notVariable (h : IsVariableName name) (s : Session) (source other : String) :
    (s.assign name source).1 ≠ .usage s!"NOT A VARIABLE NAME: {other}" := by
  rw [assign, if_pos ((isAssignable_iff name).mpr h)]
  have hne := evaluate_ne_notVariable s source other
  split
  · next reply s' hs =>
    rw [hs] at hne
    intro hreply
    exact hne (congrArg Except.error hreply)
  · intro hreply
    cases hreply

/-- A text is a name if it is read as one identifier, and if it is not reserved, too, it can be
assigned to. Any other text is refused, whatever is to be assigned, and nothing is changed. -/
theorem isName_agrees (name : String) :
    (isName name.toList ↔ Token.lex name.toList = [.identifier name]) ∧
    ∀ (s : Session) (source : String),
      ((∀ other : String, (s.assign name source).1 ≠ .usage s!"NOT A VARIABLE NAME: {other}") ↔
        isName name.toList ∧ name ∉ reserved) ∧
      (¬ (isName name.toList ∧ name ∉ reserved) →
        s.assign name source = (.usage s!"NOT A VARIABLE NAME: {name}", s)) := by
  refine ⟨(Token.lex_eq_identifier_iff name).symm, ?_⟩
  intro s source
  refine ⟨?_, fun h => assign_of_not_isVariableName h s source⟩
  constructor
  · intro h
    by_cases hname : IsVariableName name
    · exact hname
    · have hrefused := assign_of_not_isVariableName hname s source
      exact absurd (congrArg Prod.fst hrefused) (h name)
  · intro hname other
    exact assign_ne_notVariable hname s source other

end Session
end FormulaMachine
