import FunImp.Proofs.Grammar.Closure
import FunImp.Proofs.Grammar.Failing

/-! # One token of foresight

What a reader does depends on the leaves it takes and on the kind of the next one, whether it
succeeds or fails. So whatever follows an unexpected token, the error is the same. -/

namespace FunImp.Tree

namespace Reader

variable {α β : Type}

/-- The reader sees no more than the kind of the leaf behind those it takes. -/
structure Foresighted (p : Reader α) : Prop where
  ok : ∀ {ls a rest}, p.run ls = .ok (a, rest) →
    ∃ taken, ls = taken ++ rest ∧
      ∀ rest', kindOfNext rest' = kindOfNext rest → p.run (taken ++ rest') = .ok (a, rest')
  error : ∀ {ls e}, p.run ls = .error e →
    ∃ taken, ls = taken ++ e.remaining ∧
      ∀ rest', kindOfNext rest' = kindOfNext e.remaining →
        p.run (taken ++ rest') = .error { e with remaining := rest' }

theorem kindOfNext_append_congr {rest rest' : List Leaf} (h : kindOfNext rest' = kindOfNext rest)
    (ls : List Leaf) : kindOfNext (ls ++ rest') = kindOfNext (ls ++ rest) := by
  cases ls with
  | nil => exact h
  | cons l ls => rfl

theorem foresighted_pure (a : α) : (pure a : Reader α).Foresighted where
  ok {ls b rest} h := by
    obtain ⟨rfl, rfl⟩ := run_pure_eq_ok.1 h
    exact ⟨[], rfl, fun _ _ => rfl⟩
  error h := absurd h run_pure_ne_error

theorem foresighted_fail (obstacle : Obstacle) : (fail obstacle : Reader α).Foresighted where
  ok h := absurd h run_fail_ne_ok
  error {ls e} h := by
    obtain rfl := run_fail_eq_error.1 h
    exact ⟨[], rfl, fun _ _ => rfl⟩

theorem foresighted_peek : peek.Foresighted where
  ok {ls kind rest} h := by
    obtain ⟨rfl, rfl⟩ := run_peek_eq_ok.1 h
    exact ⟨[], rfl, fun rest' h => run_peek_eq_ok.2 ⟨h, rfl⟩⟩
  error h := absurd h run_peek_ne_error

theorem foresighted_require {kinds expected : List Token.Kind} (heof : .eof ∉ kinds) :
    (require kinds expected).Foresighted where
  ok {ls t rest} h := by
    obtain ⟨l, rfl, hl, rfl⟩ := run_require_eq_ok.1 h
    exact ⟨[l], rfl, fun rest' _ => run_require_eq_ok.2 ⟨l, rfl, hl, rfl⟩⟩
  error {ls e} h := by
    obtain ⟨hnext, rfl⟩ := (run_require_eq_error kinds heof).1 h
    refine ⟨[], rfl, fun rest' h => (run_require_eq_error kinds heof).2 ⟨?_, rfl⟩⟩
    exact h ▸ hnext

theorem Foresighted.bind {p : Reader α} {q : α → Reader β} (hp : p.Foresighted)
    (hq : ∀ a, (q a).Foresighted) : (p >>= q).Foresighted where
  ok {ls b rest} h := by
    obtain ⟨a, between, ha, hb⟩ := run_bind_eq_ok.1 h
    obtain ⟨front, rfl, hfront⟩ := hp.ok ha
    obtain ⟨back, rfl, hback⟩ := (hq a).ok hb
    refine ⟨front ++ back, (List.append_assoc ..).symm, fun rest' hrest => ?_⟩
    rw [List.append_assoc]
    exact run_bind_eq_ok.2 ⟨a, _, hfront _ (kindOfNext_append_congr hrest back), hback _ hrest⟩
  error {ls e} h := by
    rcases run_bind_eq_error.1 h with he | ⟨a, between, ha, he⟩
    · obtain ⟨taken, hls, hrest⟩ := hp.error he
      exact ⟨taken, hls, fun rest' h => run_bind_eq_error.2 (.inl (hrest rest' h))⟩
    · obtain ⟨front, rfl, hfront⟩ := hp.ok ha
      obtain ⟨back, hback, hrest⟩ := (hq a).error he
      rw [hback] at hfront
      refine ⟨front ++ back, by rw [hback, List.append_assoc], fun rest' h => ?_⟩
      rw [List.append_assoc]
      exact run_bind_eq_error.2
        (.inr ⟨a, _, hfront _ (kindOfNext_append_congr h back), hrest rest' h⟩)

theorem Foresighted.within {p : Reader α} (hp : p.Foresighted) (rule : Rule) :
    (within rule p).Foresighted where
  ok {ls a rest} h := by
    obtain ⟨taken, hls, hrest⟩ := hp.ok (run_within_eq_ok.1 h)
    exact ⟨taken, hls, fun rest' h => run_within_eq_ok.2 (hrest rest' h)⟩
  error {ls e} h := by
    obtain ⟨inner, hinner, rfl⟩ := run_within_eq_error.1 h
    obtain ⟨taken, hls, hrest⟩ := hp.error hinner
    exact ⟨taken, hls, fun rest' h => run_within_eq_error.2 ⟨_, hrest rest' h, rfl⟩⟩

theorem Foresighted.many {p : Reader (List Tree)} (hp : p.Foresighted)
    (more : Token.Kind → Bool) (hs : p.Strict) : (many more p hs).Foresighted where
  ok {ls ts rest} h := by
    induction hn : ls.length using Nat.strongRecOn generalizing ls ts with
    | _ n ih =>
      subst hn
      rw [run_many_eq_ok] at h
      split at h
      · rename_i hmore
        obtain ⟨us, between, vs, hus, hvs, rfl⟩ := h
        obtain ⟨back, hbetween, hback⟩ := ih _ (hs _ _ _ hus) hvs rfl
        obtain ⟨front, rfl, hfront⟩ := hp.ok hus
        subst hbetween
        refine ⟨front ++ back, (List.append_assoc ..).symm, fun rest' hrest => ?_⟩
        have hnext := kindOfNext_append_congr hrest back
        rw [List.append_assoc, run_many_eq_ok, kindOfNext_append_congr hnext front, if_pos hmore]
        exact ⟨us, _, vs, hfront _ hnext, hback _ hrest, rfl⟩
      · rename_i hmore
        obtain ⟨rfl, rfl⟩ := h
        refine ⟨[], rfl, fun rest' hrest => ?_⟩
        rw [List.nil_append, run_many_eq_ok, hrest, if_neg hmore]
        exact ⟨rfl, rfl⟩
  error {ls e} h := by
    induction hn : ls.length using Nat.strongRecOn generalizing ls with
    | _ n ih =>
      subst hn
      obtain ⟨hmore, he | ⟨us, between, hus, he⟩⟩ := run_many_eq_error.1 h
      · obtain ⟨taken, hls, hrest⟩ := hp.error he
        refine ⟨taken, hls, fun rest' h => run_many_eq_error.2 ⟨?_, .inl (hrest rest' h)⟩⟩
        rwa [kindOfNext_append_congr h, ← hls]
      · obtain ⟨back, hbetween, hback⟩ := ih _ (hs _ _ _ hus) he rfl
        obtain ⟨front, rfl, hfront⟩ := hp.ok hus
        subst hbetween
        refine ⟨front ++ back, (List.append_assoc ..).symm, fun rest' hrest => ?_⟩
        have hnext := kindOfNext_append_congr hrest back
        rw [List.append_assoc, run_many_eq_error, kindOfNext_append_congr hnext front]
        exact ⟨hmore, .inr ⟨us, _, hfront _ hnext, hback _ hrest⟩⟩

end Reader

open Reader

theorem passed_foresighted : Passed fun _ {_} p => p.Foresighted where
  pure _ a := foresighted_pure a
  peek _ := foresighted_peek
  unexpected _ kinds := foresighted_fail (.unexpected kinds)
  tooDeep := foresighted_fail .tooDeep
  require _ _ _ heof := foresighted_require heof
  bind hp hq := hp.bind hq
  many hp more hs := hp.many more hs
  within hp rule := hp.within rule

theorem foresighted_functions (budget : Nat) : (functions budget).Foresighted :=
  passed_foresighted.functions budget

end FunImp.Tree
