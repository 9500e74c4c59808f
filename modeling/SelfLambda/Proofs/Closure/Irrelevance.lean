import SelfLambda.Proofs.Closure.Lockstep

/-! What computation passes over has no influence on it. The argument of an erased application and the type of an
annotation may be replaced by any other terms, in a term and in all definitions it may come to: what is erased, evaluated
or normalized comes out the same, and the same names are asked for. -/

namespace SelfLambda

/-- Computation as an observer: it passes over erased arguments and annotating types, and knows all names. -/
def Observer.computation (confuses : Name → Name → Prop) : Observer := ⟨confuses, False, fun _ => True, trivial⟩

namespace Term

/-- Whichever binder names `confuses` allows to differ as well, terms that differ only where computation does not look
erase alike, evaluate alike and normalize alike. -/
theorem irrelevant_content_without_influence (confuses : Name → Name → Prop) {defs defs' : Definitions}
    (stored : defs.Alike (.computation confuses) defs') {t t' : Term} (alike : t.Alike (.computation confuses) t') :
    t.erase.alphaEq t'.erase = true ∧
      Run.SameOutcomes (Alike (.computation confuses)) (fun fuel => t.evaluate defs fuel)
        (fun fuel => t'.evaluate defs' fuel) ∧
      Run.SameOutcomes (fun n n' => n.alphaEq n' = true) (fun fuel => t.normalize defs fuel)
        (fun fuel => t'.normalize defs' fuel) := by
  refine ⟨alike.erase.alphaEq trivial, ?_, ?_⟩
  · exact .of_alike (t'.weakHead_steady defs' []) (alike.evaluate stored)
  · obtain ⟨ends, results⟩ :=
      Run.SameOutcomes.of_alike (t'.normalize_steady defs') (alike.normalize stored)
    refine ⟨ends, ?_⟩
    intro fuel fuel' n n' asked asked' done done'
    obtain ⟨ofResult, sameNames⟩ := results fuel fuel' n n' asked asked' done done'
    exact ⟨ofResult.alphaEq trivial, sameNames⟩

/-- A stored function is called on an erased argument that does not end in one term and is not in scope in the other; the
annotations differ in the term and in the stored function. -/
theorem irrelevant_content_without_influence_loop :
    let loops : Term := .app false (.lam false [120] (.app false (.var 0) (.var 0)))
      (.lam false [120] (.app false (.var 0) (.var 0)))
    let source (type : Term) : Definitions := fun name =>
      if name = [105] then some ⟨[105], .typ, .lam true [120] (.lam false [121] (.ann false type (.var 0)))⟩ else none
    let t : Term := .ann true .typ (.app false (.app true (.ref [105]) loops) .typ)
    let t' : Term := .ann true loops (.app false (.app true (.ref [105]) (.var 7)) .typ)
    (source .typ).Alike (.computation Eq) (source (.ref [106])) ∧ t.Alike (.computation Eq) t' ∧
      t.normalize (source .typ) 9 = .ok (.typ, [[105]]) ∧ t.erase.alphaEq t'.erase = true ∧
      Run.SameOutcomes (Alike (.computation Eq)) (fun fuel => t.evaluate (source .typ) fuel)
        (fun fuel => t'.evaluate (source (.ref [106])) fuel) ∧
      Run.SameOutcomes (fun n n' => n.alphaEq n' = true) (fun fuel => t.normalize (source .typ) fuel)
        (fun fuel => t'.normalize (source (.ref [106])) fuel) := by
  intro loops source t t'
  have stored : (source .typ).Alike (.computation Eq) (source (.ref [106])) := by
    intro name _
    by_cases defined : name = [105]
    · simp only [source, defined, if_true]
      exact .some (.lam true rfl (.lam false rfl (.ann false nofun (.var 0))))
    · simp only [source, defined, if_false]
      exact .none
  have alike : t.Alike (.computation Eq) t' :=
    .ann true nofun (.app false (.app true (.ref trivial) (fun seen => seen.elim nofun nofun)) (fun _ => .typ))
  have done : t.normalize (source .typ) 9 = .ok (.typ, [[105]]) := by
    simp [t, source, placeholder, normalize, Value.ofTerm, Value.ofTermIn, Value.ofVar, Value.normalize, Value.weakHead,
      Value.quote, Run.andThen, Closure.call, consult, unfolding]
  exact ⟨stored, alike, done, irrelevant_content_without_influence Eq stored alike⟩

end Term

end SelfLambda
