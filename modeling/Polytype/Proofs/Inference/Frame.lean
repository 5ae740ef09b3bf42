/-
# Polytype.Proofs.Inference.Frame — what inference takes from the environment.

Inference on an expression depends on the bindings of its free names only (`expr_frame`): a binding that it does
not mention may be added, changed or dropped, and neither the result nor the state afterwards is another.  Such a
binding could still matter to `let`, which goes by the free variables of the whole environment.  That it does
not is part of `expr_alike`, of which this is the case of one expression and itself: it corresponds to itself
under every correspondence that keeps its free names (`Expr.Alpha.of_free`).
-/
import Polytype.Proofs.Inference.Alpha
import Polytype.Proofs.Inference.Capture

namespace Polytype

/-! ## Free names -/

namespace Expr

mutual
/-- The names that an expression takes from its environment. -/
def freeNames : Expr → List String
  | .lit _ => []
  | .var name => [name]
  | .lam param _ body => body.freeNames.filter (· ≠ param)
  | .app fn arg => fn.freeNames ++ arg.freeNames
  | .letIn name _ value body => value.freeNames ++ body.freeNames.filter (· ≠ name)
  | .letRec name _ value body => (value.freeNames ++ body.freeNames).filter (· ≠ name)
  | .ite cond thenBranch elseBranch => cond.freeNames ++ thenBranch.freeNames ++ elseBranch.freeNames
  | .binop _ left right => left.freeNames ++ right.freeNames
  | .construct _ args => freeNamesList args
  | .tuple elems => freeNamesList elems
  | .proj e _ => e.freeNames
  | .record fields => freeNamesFields fields
  | .access e _ => e.freeNames
  | .range first last => first.freeNames ++ last.freeNames
  | .matchOn scrutinee arms => scrutinee.freeNames ++ freeNamesArms arms
/-- The free names of several expressions. -/
def freeNamesList : List Expr → List String
  | [] => []
  | e :: es => e.freeNames ++ freeNamesList es
/-- The free names of labelled expressions. -/
def freeNamesFields : List (String × Expr) → List String
  | [] => []
  | (_, e) :: fs => e.freeNames ++ freeNamesFields fs
/-- The free names of arms: those of each body that its pattern does not bind. -/
def freeNamesArms : List (Pattern × Expr) → List String
  | [] => []
  | (p, e) :: arms => e.freeNames.filter (· ∉ p.binders) ++ freeNamesArms arms
end

theorem freeNamesFields_eq (fs : List (String × Expr)) :
    freeNamesFields fs = freeNamesList (fs.map Prod.snd) := by
  induction fs with
  | nil => rfl
  | cons f fs ih => rw [freeNamesFields, ih, List.map_cons, freeNamesList]

end Expr

/-! ## An expression and itself -/

namespace Names

variable {N : Names} {x : String}

theorem bind_self {a : String} (h : x ≠ a → N x x) : N.bind a a x x := by
  by_cases hx : x = a
  · exact Or.inl ⟨hx, hx⟩
  · exact Or.inr ⟨hx, hx, h hx⟩

theorem bindAll_self {xs : List String} (h : x ∉ xs → N x x) : N.bindAll (xs.zip xs) x x := by
  induction xs generalizing N with
  | nil => exact h List.not_mem_nil
  | cons a xs ih =>
      refine ih fun hxs => bind_self fun hxa => h fun hx => ?_
      exact (List.mem_cons.mp hx).elim hxa hxs

end Names

namespace Expr

variable {N : Names}

/-- The correspondence keeps the names of the list. -/
def Keeps (N : Names) (names : List String) : Prop := ∀ x ∈ names, N x x

theorem Keeps.left {xs ys : List String} (h : Keeps N (xs ++ ys)) : Keeps N xs := fun x hx =>
  h x (List.mem_append_left ys hx)

theorem Keeps.right {xs ys : List String} (h : Keeps N (xs ++ ys)) : Keeps N ys := fun x hx =>
  h x (List.mem_append_right xs hx)

theorem Keeps.bind {xs : List String} {a : String} (h : Keeps N (xs.filter (· ≠ a))) :
    Keeps (N.bind a a) xs := fun x hx =>
  Names.bind_self fun hxa => h x (List.mem_filter.mpr ⟨hx, by simpa using hxa⟩)

theorem Keeps.bindAll {xs binders : List String} (h : Keeps N (xs.filter (· ∉ binders))) :
    Keeps (N.bindAll (binders.zip binders)) xs := fun x hx =>
  Names.bindAll_self fun hxb => h x (List.mem_filter.mpr ⟨hx, by simpa using hxb⟩)

theorem AlphaList.of_free {es : List Expr} (ih : ∀ e ∈ es, ∀ {N : Names}, Keeps N e.freeNames → e.Alpha N e)
    (h : Keeps N (freeNamesList es)) : AlphaList N es es := by
  induction es with
  | nil => exact .nil N
  | cons e es ihes =>
      rw [freeNamesList] at h
      exact .cons (ih e List.mem_cons_self h.left)
        (ihes (fun e' he' => ih e' (List.mem_cons_of_mem e he')) h.right)

theorem AlphaArms.of_free {arms : List (Pattern × Expr)}
    (ih : ∀ arm ∈ arms, ∀ {N : Names}, Keeps N arm.2.freeNames → arm.2.Alpha N arm.2)
    (h : Keeps N (freeNamesArms arms)) : AlphaArms N arms arms := by
  induction arms with
  | nil => exact .nil N
  | cons arm arms iharms =>
      rw [freeNamesArms] at h
      exact .cons rfl (ih arm List.mem_cons_self h.left.bindAll)
        (iharms (fun arm' harm' => ih arm' (List.mem_cons_of_mem arm harm')) h.right)

/-- An expression corresponds to itself when its free names do. -/
theorem Alpha.of_free (e : Expr) : ∀ {N : Names}, Keeps N e.freeNames → e.Alpha N e := by
  induction e with
  | lit l => exact fun _ => .lit _ l
  | var name =>
      intro N h
      rw [freeNames] at h
      exact .var (h name List.mem_cons_self)
  | lam param ascription body ih =>
      intro N h
      rw [freeNames] at h
      exact .lam (ih h.bind)
  | app fn arg ihf iha =>
      intro N h
      rw [freeNames] at h
      exact .app (ihf h.left) (iha h.right)
  | letIn name ascription value body ihv ihb =>
      intro N h
      rw [freeNames] at h
      exact .letIn (ihv h.left) (ihb h.right.bind)
  | letRec name ascription value body ihv ihb =>
      intro N h
      rw [freeNames] at h
      exact .letRec (ihv h.bind.left) (ihb h.bind.right)
  | ite cond thenBranch elseBranch ihc iht ihe =>
      intro N h
      rw [freeNames] at h
      exact .ite (ihc h.left.left) (iht h.left.right) (ihe h.right)
  | binop op left right ihl ihr =>
      intro N h
      rw [freeNames] at h
      exact .binop (ihl h.left) (ihr h.right)
  | construct name args ih =>
      intro N h
      rw [freeNames] at h
      exact .construct (.of_free ih h)
  | tuple elems ih =>
      intro N h
      rw [freeNames] at h
      exact .tuple (.of_free ih h)
  | proj tuple index ih =>
      intro N h
      rw [freeNames] at h
      exact .proj (ih h)
  | record fields ih =>
      intro N h
      rw [freeNames, freeNamesFields_eq] at h
      exact .record rfl (.of_free (List.forall_mem_map.mpr ih) h)
  | access record label ih =>
      intro N h
      rw [freeNames] at h
      exact .access (ih h)
  | range first last ihf ihl =>
      intro N h
      rw [freeNames] at h
      exact .range (ihf h.left) (ihl h.right)
  | matchOn scrutinee arms ihs ih =>
      intro N h
      rw [freeNames] at h
      exact .matchOn (ihs h.left) (.of_free ih h.right)

end Expr

/-! ## Environments that agree on the free names -/

namespace Infer

/-- **Inference sees only the bindings it uses.** In two environments that agree on the free names of an
expression and whose variables, free and quantified, have all been drawn before, inference has the same outcome:
the same type and substitution, or errors about the same fault.  Either way it draws the same variables and
raises the same warnings. -/
theorem expr_frame {decls : List Decl} {r : Registry} (hbuild : Registry.build decls = .ok r)
    (checkCoverage : Bool) (e : Expr) {Γ Γ' : Env} {st : InferState}
    (hagree : ∀ x ∈ e.freeNames, Γ[x]? = Γ'[x]?) (hΓ : Γ.Bounded st.next) (hΓ' : Γ'.Bounded st.next) :
    SameOutcome SameFault id ((expr ⟨r, checkCoverage⟩ Γ e).start st).1
        ((expr ⟨r, checkCoverage⟩ Γ' e).start st).1 ∧
      ((expr ⟨r, checkCoverage⟩ Γ' e).start st).2 = ((expr ⟨r, checkCoverage⟩ Γ e).start st).2 := by
  let N : Names := fun x y => x = y ∧ x ∈ e.freeNames
  have hself : e.Alpha N e := .of_free e fun x hx => ⟨rfl, hx⟩
  have hpaired : Γ.Paired N st.next Γ' := by
    refine ⟨?_, fun x y hxy _ => hxy.1, hΓ, hΓ'⟩
    rintro x y ⟨rfl, hx⟩
    exact hagree x hx
  exact expr_alike (c := ⟨r, checkCoverage⟩) (Registry.build_wellFormed hbuild) e hself hpaired

/-- One more binding, in whose type the variable that `id` quantifies is free. -/
def crowded : Env := Env.bindTy openValue "spare" (.fn (.var 0) (.var 1))

/-- A function that gives the open value whatever it is applied to, twice. -/
def ignoring : Expr :=
  .letIn "const" none (.lam "p" none (.var "y")) (.tuple [.var "const", .app (.var "const") (.var "id")])

theorem openValue_bounded : openValue.Bounded 2 := by
  have hid : identityScheme.Bounded 2 := by
    refine ⟨fun v hv => ?_, fun v hv => ?_⟩
    · obtain rfl : v = 0 := by simpa [identityScheme, Ty.vars] using hv
      exact (by decide : (0 : Int) < 2)
    · obtain rfl : 0 = v := by simpa [identityScheme] using hv
      exact (by decide : (0 : Int) < 2)
  have hone : (Ty.var 1).Within (drawn 2) := Ty.within_var.mpr (by decide : (1 : Int) < 2)
  exact ((Env.Paired.empty 2).left.insert hid "id").insert ⟨hone, by simp [Scheme.mono]⟩ "y"

theorem crowded_bounded : crowded.Bounded 2 := by
  refine openValue_bounded.insert ⟨?_, by simp [Scheme.mono]⟩ "spare"
  exact Ty.within_fn.mpr ⟨Ty.within_var.mpr (by decide : (0 : Int) < 2),
    Ty.within_var.mpr (by decide : (1 : Int) < 2)⟩

theorem expr_frame_spare :
    crowded ≠ openValue ∧ ∃ r ty st', Registry.build optionDecls = .ok r ∧
      (expr ⟨r, true⟩ openValue ignoring).start { next := 2 } = (.ok ty, st') ∧
      (expr ⟨r, true⟩ crowded ignoring).start { next := 2 } = (.ok ty, st') := by
  have hnew : crowded ≠ openValue := by
    intro h
    have hspare : crowded["spare"]? = openValue["spare"]? := by rw [h]
    simp [crowded, openValue, Env.bindTy] at hspare
  have heval : ((Registry.build optionDecls).toOption.bind fun r =>
      ((expr ⟨r, true⟩ openValue ignoring).start { next := 2 }).1.toOption).map
        (fun ty => some ty.type) = some (some (.tuple [.fn (.var 3) (.var 6), .var 6])) := by cbv
  obtain ⟨r, ty, st', hbuild, hrun, -⟩ := exists_run_of_eval heval
  have hagree : ∀ x ∈ ignoring.freeNames, openValue[x]? = crowded[x]? := by
    intro x hx
    have hx : x = "y" ∨ x = "id" := by simpa [ignoring, Expr.freeNames, Expr.freeNamesList] using hx
    rcases hx with rfl | rfl <;>
      simp [crowded, Env.bindTy, Std.ExtTreeMap.getElem?_insert]
  refine ⟨hnew, r, ty, st', hbuild, hrun, Together.eq_ok ?_ hrun⟩
  exact expr_frame hbuild true ignoring hagree openValue_bounded crowded_bounded

end Infer

end Polytype
