import FunImp.Proofs.Typing.Validate

/-! # The order of declarations

What names stand for in a body depends on which functions there are, not on their order. So the
typing rules hold of a program and of any rearrangement of it alike, and since a node has one type
by them, the same types are recorded. -/

namespace FunImp

namespace Program

variable {p q : Program}

theorem declares_eq_of_perm (h : q.functions.Perm p.functions) : q.Declares = p.Declares := by
  have hforward {p q : Program} (h : q.functions.Perm p.functions) {name : String}
      {parameters : List Ty} {result : Ty} {purity : Purity}
      (hd : q.Declares name parameters result purity) :
      p.Declares name parameters result purity := by
    cases hd with
    | print hn hp hr hu => exact .print hn hp hr hu
    | function hf hn hp hr hu => exact .function (h.mem_iff.1 hf) hn hp hr hu
  funext name parameters result purity
  exact propext ⟨hforward h, hforward h.symm⟩

theorem envOf_eq_of_perm (h : q.functions.Perm p.functions) (f : FunctionDecl) :
    q.envOf f = p.envOf f := by
  rw [envOf, envOf, declares_eq_of_perm h]

theorem WellTyped.of_perm (ht : p.WellTyped) (h : q.functions.Perm p.functions) :
    q.WellTyped := by
  intro f hf
  obtain ⟨ty, hty, hbody⟩ := ht f (h.mem_iff.1 hf)
  exact ⟨ty, hty, by rwa [envOf_eq_of_perm h]⟩

theorem WellDeclared.of_perm (hd : p.WellDeclared) (h : q.functions.Perm p.functions) :
    q.WellDeclared where
  types f hf := hd.types f (h.mem_iff.1 hf)
  names := (h.map _).nodup_iff.2 hd.names
  builtins f hf := hd.builtins f (h.mem_iff.1 hf)
  paramNames f hf := hd.paramNames f (h.mem_iff.1 hf)

theorem nodes_perm (h : q.functions.Perm p.functions) : q.nodes.Perm p.nodes :=
  h.flatMap_right _

theorem NodeHasType.of_perm {n : Expr} {ty : Ty} (hn : q.NodeHasType n ty)
    (h : q.functions.Perm p.functions) : p.NodeHasType n ty := by
  obtain ⟨f, hf, hmem, hty⟩ := hn
  exact ⟨f, h.mem_iff.1 hf, hmem, by rwa [← envOf_eq_of_perm h]⟩

/-- If numbers differ, a node has one type at most. -/
theorem NodeHasType.unique {n : Expr} {ty ty' : Ty} (hty : p.NodeHasType n ty)
    (hty' : p.NodeHasType n ty') (hd : p.WellDeclared) (h : (p.nodes.map Expr.id).Nodup) :
    ty = ty' := by
  obtain ⟨f, hf, hnf, hty⟩ := hty
  obtain ⟨g, hg, hng, hty'⟩ := hty'
  obtain rfl := eq_of_mem_nodes h hf hg hnf hng
  exact hd.hasType_unique hf hty hty'

end Program

/-- What is recorded for nodes in one order or in another is the same if each has one type. -/
theorem Recorded.unique {R : Expr → Ty → Prop} {ns ms : List Expr} {s t u : TypeTable}
    (hn : Recorded R ns s t) (hm : Recorded R ms s u) (hperm : ms.Perm ns)
    (hnodup : (ns.map Expr.id).Nodup)
    (hR : ∀ n ty ty', R n ty → R n ty' → ty = ty') : t = u := by
  refine Std.ExtTreeMap.ext_getElem? fun id => ?_
  have hids := hperm.map Expr.id
  by_cases hid : id ∈ ns.map Expr.id
  · obtain ⟨n, hmem, rfl⟩ := List.mem_map.1 hid
    obtain ⟨ty, hty, hget⟩ := hn.types hnodup n hmem
    obtain ⟨ty', hty', hget'⟩ := hm.types (hids.nodup_iff.2 hnodup) n (hperm.mem_iff.2 hmem)
    rw [hget, hget', hR n ty ty' hty hty']
  · rw [hn.others id hid, hm.others id (mt hids.mem_iff.1 hid)]

/-- Whether a program is valid does not depend on the order of its functions, and neither do the
types of its nodes: a function may call those before it, those behind it and itself. -/
theorem validate_perm (options : Options) (p : Program) (fs : List FunctionDecl)
    (h : (p.nodes.map Expr.id).Nodup) (hfs : fs.Perm p.functions) :
    ((∃ typed, validate options { p with functions := fs } = .ok typed) ↔
        ∃ typed, validate options p = .ok typed) ∧
      ∀ typed, validate options p = .ok typed →
        validate options { p with functions := fs } =
          .ok ⟨{ p with functions := fs }, typed.types⟩ := by
  let q : Program := { p with functions := fs }
  have hq : q.functions.Perm p.functions := hfs
  constructor
  · constructor
    · rintro ⟨typed, hok⟩
      obtain ⟨hd, ht, -⟩ := sound_validate hok
      exact complete_validate (hd.of_perm hq.symm) (ht.of_perm hq.symm) options
    · rintro ⟨typed, hok⟩
      obtain ⟨hd, ht, -⟩ := sound_validate hok
      exact complete_validate (hd.of_perm hq) (ht.of_perm hq) options
  · intro typed hok
    obtain ⟨hd, ht, -, hrecorded⟩ := sound_validate hok
    obtain ⟨⟨_, types⟩, hok'⟩ := complete_validate (hd.of_perm hq) (ht.of_perm hq) options
    obtain ⟨-, -, rfl, hrecorded'⟩ := sound_validate hok'
    have hsame : typed.types = types :=
      hrecorded.unique (hrecorded'.mono fun n _ ty hty => hty.of_perm hq) (Program.nodes_perm hq) h
        fun n ty ty' hty hty' => hty.unique hty' hd h
    rw [hok', hsame]

/-- The function `main` may stand in front of the function that it calls. -/
theorem validate_perm_sample :
    (Program.sample.nodes.map Expr.id).Nodup ∧
      [Program.sampleMain, Program.sampleSame].Perm Program.sample.functions ∧
      ∃ typed, validate default Program.sample = .ok typed ∧
        validate default { Program.sample with
            functions := [Program.sampleMain, Program.sampleSame] } =
          .ok ⟨{ Program.sample with functions := [Program.sampleMain, Program.sampleSame] },
            typed.types⟩ := by
  have hnodup : (Program.sample.nodes.map Expr.id).Nodup := by decide
  have hperm : [Program.sampleMain, Program.sampleSame].Perm Program.sample.functions :=
    .swap Program.sampleSame Program.sampleMain []
  obtain ⟨typed, hok⟩ :=
    complete_validate Program.wellDeclared_sample Program.wellTyped_sample default
  have hsame := (validate_perm default Program.sample _ hnodup hperm).2 typed hok
  exact ⟨hnodup, hperm, typed, hok, hsame⟩

end FunImp
