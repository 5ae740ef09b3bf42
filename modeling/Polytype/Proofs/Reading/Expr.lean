/-
# Polytype.Proofs.Reading.Expr — expressions are read back.

An expression that is delimited is taken from its text, whatever follows, as long as it cannot belong to the
expression (`readBack`).  A selection is written behind its subject, and more of them may follow.  So a reader that
has taken an expression which is not open goes on with the selections after it (`accesses`), and the statement
about such expressions that carries the induction is `Headed`: having read the text, the reader is about to go on.
-/
import Polytype.Proofs.Reading.Delimited

namespace Polytype

open Filter Reader Text

namespace Expr

/-! ## Operators -/

/-- The known operators. -/
def operators : List String := ["+", "-", "*", "/", "<", "<=", ">", ">=", "==", "!="]

theorem mem_operators {op : String} (h : (operatorKind? op).isSome = true) : op ∈ operators := by
  rw [operatorKind?] at h
  split at h
  next hop => exact List.mem_append_left ["<", "<=", ">", ">=", "==", "!="] hop
  next =>
    split at h
    next hop => exact List.mem_append_right ["+", "-", "*", "/"] (List.mem_append_left ["==", "!="] hop)
    next =>
      split at h
      next hop => exact List.mem_append_right ["+", "-", "*", "/", "<", "<=", ">", ">="] hop
      next => cases h

/-- Takes an operator between blanks, if one comes next. -/
def operator? : Reader (Option String) := fun cs =>
  match operators.find? fun op => (" " ++ op ++ " ").toList.isPrefixOf cs with
  | some op => some (some op, cs.drop (op.length + 2))
  | none => some (none, cs)

theorem run_operator {op : String} (h : op ∈ operators) (rest : List Char) :
    operator?.run (" ".toList ++ (op.toList ++ (" ".toList ++ rest))) = some (some op, rest) := by
  simp only [operators, List.mem_cons, List.not_mem_nil, or_false] at h
  rcases h with rfl | rfl | rfl | rfl | rfl | rfl | rfl | rfl | rfl | rfl <;> rfl

/-- What begins an expression is no operator with a blank behind it. -/
theorem run_operator_of_opens {cs : List Char} (h : opens cs = true) :
    operator?.run (' ' :: cs) = some (none, ' ' :: cs) := by
  have hnone : operators.find? (fun op => (" " ++ op ++ " ").toList.isPrefixOf (' ' :: cs)) = none := by
    rw [List.find?_eq_none]
    intro op hop hprefix
    obtain ⟨t, ht⟩ := List.isPrefixOf_iff_prefix.mp hprefix
    -- A minus sign begins a number only if a digit comes next.
    have hclash : opens ((op ++ " ").toList ++ t) = false := by
      simp only [operators, List.mem_cons, List.not_mem_nil, or_false] at hop
      rcases hop with rfl | rfl | rfl | rfl | rfl | rfl | rfl | rfl | rfl | rfl <;> rfl
    have hcs : (op ++ " ").toList ++ t = cs := by
      rw [String.append_assoc, String.toList_append] at ht
      exact (List.cons.inj ht).2
    rw [hcs, h] at hclash
    cases hclash
  rw [StateT.run, operator?, hnone]

/-! ## Readers of expressions -/

section Readers

variable (self : Reader Expr) (n : Nat)

/-- Takes an argument. -/
def argument : Reader Expr := do
  expect " "
  self

/-- Takes what the expression is applied to, up to the closing parenthesis. -/
def applied (e : Expr) : Reader Expr :=
  match e.bareName? with
  | some name => do
    let args ← many opensNext (argument self) n
    expect ")"
    return .construct name args
  | none => do
    let arg ← argument self
    expect ")"
    return .app e arg

/-- Takes what comes after the first expression in parentheses. -/
def afterFirst (e : Expr) : Reader Expr := do
  if ← accept ", " then
    return .tuple (e :: (← series ")" self n))
  else
    match ← operator? with
    | some op => do
      let right ← self
      expect ")"
      return .binop op e right
    | none => applied self n e

/-- Takes what stands between brackets or apostrophes. -/
def bracketed : Reader Expr := do
  if ← accept "(" then
    if ← accept ")" then
      return .tuple []
    else
      afterFirst self n (← self)
  else if ← accept "\x7b " then
    return .record (← enclosed " \x7d" (labelled Name.wordChar self) n)
  else
    expect "'"
    let c ← char
    expect "'"
    return .lit (.char c)

/-- A component or a field of the expression. -/
def selection (e : Expr) (w : String) : Expr :=
  if w.toList.head?.any Char.isDigit then .proj e (w.toNat?.getD 0) else .access e w

/-- Takes the selections that follow an expression, and the other end of a range. -/
def accesses : Nat → Expr → Reader Expr
  | 0, e => return e
  | n + 1, e => do
    if ← accept ".." then
      return .range e (← self)
    else if ← accept "." then
      accesses n (selection e (← word Name.wordChar))
    else
      return e

/-- Takes a bound variable with its ascription. -/
def binder : Reader (String × Option TypeExpr) := do
  let name ← word Name.wordChar
  if ← accept " : " then
    return (name, some (← TypeExpr.read n))
  else
    return (name, none)

/-- Takes the rest of a function. -/
def lambda : Reader Expr := do
  expect " "
  let inParens ← accept "("
  let x ← binder n
  expect (if inParens then ") -> " else " -> ")
  return .lam x.1 x.2 (← self)

/-- Takes a definition of one kind or the other, and the expression that it is for. -/
def definitionOf (form : String → Option TypeExpr → Expr → Expr → Expr) : Reader Expr := do
  let x ← binder n
  expect " = "
  let value ← self
  expect " in "
  return form x.1 x.2 value (← self)

/-- Takes the rest of a definition. -/
def definition : Reader Expr := do
  expect " "
  if ← accept "rec " then definitionOf self n .letRec else definitionOf self n .letIn

/-- Takes the rest of a conditional. -/
def conditional : Reader Expr := do
  expect " "
  let c ← self
  expect " then "
  let t ← self
  expect " else "
  return .ite c t (← self)

/-- Takes an arm of a match. -/
def arm : Reader (Pattern × Expr) := do
  expect " | "
  let p ← Pattern.read n
  expect " -> "
  return (p, ← self)

/-- Takes the rest of a match. -/
def matching : Reader Expr := do
  expect " "
  let scrutinee ← self
  expect " with"
  let arms ← many (" | ".toList.isPrefixOf ·) (arm self n) n
  if arms.isEmpty then accesses self n (.matchOn scrutinee []) else return .matchOn scrutinee arms

/-- Takes the rest of an expression that begins with a name or a keyword, or else with a bracket. -/
def afterName (w : String) : Reader Expr :=
  if w = "fun" then lambda self n
  else if w = "let" then definition self n
  else if w = "if" then conditional self
  else if w = "match" then matching self n
  else if w = "" then do accesses self n (← bracketed self n)
  else accesses self n (.var w)

/-- Takes the rest of an expression that begins with a word. -/
def afterToken : Token → Reader Expr
  | .int v => accesses self n (.lit (.int v))
  | .bool b => accesses self n (.lit (.bool b))
  | .capitalized w => accesses self n (.construct w [])
  | .name w => afterName self n w

end Readers

/-- Reads an expression that is nested to at most the given depth. -/
def read : Nat → Reader Expr
  | 0 => failure
  | n + 1 => do afterToken (read n) n (← token)

/-! ## What may follow -/

/-- The characters that go on with an expression: those of words, and the dot. -/
def dotted (c : Char) : Bool := Name.wordChar c || c == '.'

/-- Nothing comes next that belongs to any expression before. -/
def Closes (rest : List Char) : Prop := Stops dotted rest ∧ " | ".toList.isPrefixOf rest = false

/-- Nothing comes next that belongs to the expression before. -/
def Ends (e : Expr) (rest : List Char) : Prop :=
  Stops dotted rest ∧ (e.endsInMatch = true → " | ".toList.isPrefixOf rest = false)

theorem Closes.ends {rest : List Char} (h : Closes rest) (e : Expr) : Ends e rest := ⟨h.1, fun _ => h.2⟩

theorem closes_of_head {c : Char} {rest : List Char} (hc : dotted c = false)
    (hbar : " | ".toList.isPrefixOf (c :: rest) = false) : Closes (c :: rest) := by
  exact ⟨stops_of_head hc _, hbar⟩

/-- Whether the text begins with a character that goes on with no expression, and not like an arm. -/
def closing : List Char → Bool
  | c :: d :: _ => !dotted c && d != '|'
  | _ => false

theorem closes_text (s : String) (h : closing s.toList = true) (rest : List Char) : Closes (s.toList ++ rest) := by
  cases hs : s.toList with
  | nil =>
      rw [hs] at h
      cases h
  | cons c cs =>
      cases cs with
      | nil =>
          rw [hs] at h
          cases h
      | cons d cs =>
          rw [hs, closing, Bool.and_eq_true, Bool.not_eq_true', bne_iff_ne] at h
          refine closes_of_head h.1 ?_
          simp [List.isPrefixOf, h.2.symm]

theorem closes_of_opens {cs : List Char} (h : opens cs = true) : Closes (' ' :: cs) := by
  refine closes_of_head rfl ?_
  cases cs with
  | nil => rfl
  | cons c cs =>
      have hbar : '|' ≠ c := by
        rintro rfl
        cases h
      simp [List.isPrefixOf, hbar]

theorem separated_parens : Separated ")" Closes :=
  ⟨fun _ => closes_of_head rfl rfl, fun _ => closes_of_head rfl rfl, fun _ => rfl⟩

theorem separated_braces : Separated " \x7d" Closes :=
  ⟨separated_parens.comma, fun _ => closes_of_head rfl rfl, fun _ => rfl⟩

theorem stops_of_dotted {rest : List Char} (h : Stops dotted rest) : Stops Name.wordChar rest := fun c hc =>
  (Bool.or_eq_false_iff.mp (h c hc)).1

theorem isPrefixOf_dot_eq_false {rest : List Char} (h : Stops dotted rest) (s : List Char) :
    ('.' :: s).isPrefixOf rest = false := by
  cases rest with
  | nil => rfl
  | cons c cs =>
      have hc : '.' ≠ c := by
        rintro rfl
        cases h '.' rfl
      simp [List.isPrefixOf, hc]

/-! ## Selections -/

section Forms

variable {self : Reader Expr} {n : Nat}

theorem selection_repr (e : Expr) (i : Nat) : selection e i.repr = .proj e i := by
  obtain ⟨⟨c, cs, hcs, hc⟩, -⟩ := Name.isIdentifier_iff.mp (Name.isIdentifier_repr i)
  rw [selection, hcs, List.head?_cons, Option.any_some, if_pos hc, Nat.toNat?_repr, Option.getD_some]

theorem selection_variable (e : Expr) {w : String} (h : Name.isVariable w = true) :
    selection e w = .access e w := by
  obtain ⟨⟨c, cs, hcs, hc⟩, -⟩ := Name.isIdentifier_iff.mp (Name.isVariable_iff.mp h).1
  rw [selection, hcs, List.head?_cons, Option.any_some, (Name.variableStart_spec hc).2]
  rfl

theorem run_accesses_end {e : Expr} {rest : List Char} (h : Stops dotted rest) :
    (accesses self n e).run rest = some (e, rest) := by
  cases n with
  | zero => rfl
  | succ n =>
      have htwo : "..".toList.isPrefixOf rest = false := isPrefixOf_dot_eq_false h ['.']
      have hone : ".".toList.isPrefixOf rest = false := isPrefixOf_dot_eq_false h []
      rw [accesses, run_bind_of (run_accept_of_not htwo), if_neg Bool.false_ne_true]
      exact run_bind_of (run_accept_of_not hone)

theorem run_accesses_dot {start : Char → Bool} {e : Expr} {w : String} {rest : List Char}
    (hw : Name.isIdentifier start w = true) (hrest : Stops Name.wordChar rest) :
    (accesses self (n + 1) e).run (".".toList ++ (w.toList ++ rest)) =
      (accesses self n (selection e w)).run rest := by
  obtain ⟨⟨c, cs, hcs, -⟩, hall⟩ := Name.isIdentifier_iff.mp hw
  have hone : "..".toList.isPrefixOf (".".toList ++ (w.toList ++ rest)) = false := by
    have hc : '.' ≠ c := by
      rintro rfl
      cases hall '.' (hcs ▸ List.mem_cons_self)
    simp [List.isPrefixOf, hcs, hc]
  rw [accesses, run_bind_of (run_accept_of_not hone), if_neg Bool.false_ne_true, run_bind_of (run_accept "." _),
    if_pos rfl, run_bind_of (run_word hall hrest)]

theorem run_accesses_range {first last : Expr} {rest : List Char}
    (hlast : self.Takes (Ends last) last.render last) (hrest : Ends last rest) :
    (accesses self (n + 1) first).run ("..".toList ++ (last.render.toList ++ rest)) =
      some (.range first last, rest) := by
  rw [accesses, run_bind_of (run_accept ".." _), if_pos rfl]
  exact run_bind_of (hlast rest hrest)

/-! ## Brackets -/

/-- The first expression in parentheses is read as such. -/
theorem run_bracketed {e : Expr} {rest : List Char} (hopens : Opens e.render)
    (he : self.Takes Closes e.render e) (hrest : Closes rest) :
    (bracketed self n).run ("(".toList ++ (e.render.toList ++ rest)) = (afterFirst self n e).run rest := by
  have hclose : ")".toList.isPrefixOf (e.render.toList ++ rest) = false :=
    hopens.begins.isPrefixOf_eq_false ⟨')', [], rfl, rfl⟩ rest
  rw [bracketed, run_bind_of (run_accept "(" _), if_pos rfl, run_bind_of (run_accept_of_not hclose),
    if_neg Bool.false_ne_true]
  exact run_bind_of (he rest hrest)

theorem bracketed_tuple {elems : List Expr} (hlen : elems.length ≠ 1) (hopens : ∀ e ∈ elems, Opens e.render)
    (helems : ∀ e ∈ elems, self.Takes Closes e.render e) (hn : elems.length ≤ n) :
    (bracketed self n).Takes (fun _ => True) (render (.tuple elems)) (.tuple elems) := by
  intro rest _
  rw [render, renderList_eq]
  cases elems with
  | nil => exact run_bind_of (run_accept "(" _)
  | cons e elems =>
      cases elems with
      | nil => exact absurd rfl hlen
      | cons e' elems =>
          simp only [List.map_cons, commas_cons_cons, String.toList_append, List.append_assoc]
          rw [run_bracketed (hopens e List.mem_cons_self) (helems e List.mem_cons_self) (separated_parens.comma _),
            afterFirst, run_bind_of (run_accept ", " _), if_pos rfl, ← List.map_cons]
          exact run_bind_of (run_series separated_parens (List.cons_ne_nil e' elems)
            (fun c hc => helems c (List.mem_cons_of_mem e hc)) (Nat.le_of_succ_le hn) rest)

theorem bracketed_binop {op : String} {l r : Expr} (hop : op ∈ operators) (hopens : Opens l.render)
    (hl : self.Takes Closes l.render l) (hr : self.Takes Closes r.render r) :
    (bracketed self n).Takes (fun _ => True) (render (.binop op l r)) (.binop op l r) := by
  intro rest _
  have hclosing : operators.all (fun op => closing (" " ++ op).toList) = true := rfl
  have hblank : ∀ rest, Closes (" ".toList ++ (op.toList ++ rest)) := by
    intro rest
    rw [← List.append_assoc, ← String.toList_append]
    exact closes_text _ (List.all_eq_true.mp hclosing op hop) rest
  have hcomma : ∀ rest, ", ".toList.isPrefixOf (" ".toList ++ rest) = false := fun _ => rfl
  simp only [render, String.toList_append, List.append_assoc]
  rw [run_bracketed hopens hl (hblank _), afterFirst, run_bind_of (run_accept_of_not (hcomma _)),
    if_neg Bool.false_ne_true, run_bind_of (run_operator hop _)]
  dsimp only
  rw [run_bind_of (hr _ (separated_parens.closed rest)), run_bind_of (run_expect ")" _)]
  rfl

theorem argument_takes {e : Expr} (he : self.Takes Closes e.render e) :
    (argument self).Takes Closes (" " ++ e.render) e := by
  intro rest hrest
  rw [argument, String.toList_append, List.append_assoc, run_bind_of (run_expect " " _)]
  exact he rest hrest

/-- An expression in parentheses with another one after it is applied. -/
theorem run_bracketed_applied {e : Expr} {cs : List Char} (hopens : Opens e.render)
    (he : self.Takes Closes e.render e) (hcs : opens cs = true) :
    (bracketed self n).run ("(".toList ++ (e.render.toList ++ ' ' :: cs)) =
      (applied self n e).run (' ' :: cs) := by
  have hcomma : ", ".toList.isPrefixOf (' ' :: cs) = false := rfl
  rw [run_bracketed hopens he (closes_of_opens hcs), afterFirst, run_bind_of (run_accept_of_not hcomma),
    if_neg Bool.false_ne_true, run_bind_of (run_operator_of_opens hcs)]

theorem bracketed_app {fn arg : Expr} (hbare : fn.bareName? = none) (hfnopens : Opens fn.render)
    (hargopens : Opens arg.render) (hfn : self.Takes Closes fn.render fn)
    (harg : self.Takes Closes arg.render arg) :
    (bracketed self n).Takes (fun _ => True) (render (.app fn arg)) (.app fn arg) := by
  intro rest _
  have harg := argument_takes harg _ (separated_parens.closed rest)
  simp only [render, String.toList_append, List.append_assoc] at harg ⊢
  refine (run_bracketed_applied hfnopens hfn (hargopens _)).trans ?_
  rw [applied, hbare]
  refine (run_bind_of harg).trans ?_
  exact run_bind_of (run_expect ")" rest)

theorem bracketed_construct {name : String} {args : List Expr} (hne : args ≠ [])
    (hopens : Opens (render (.construct name [])))
    (hname : self.Takes Closes (render (.construct name [])) (.construct name []))
    (hargopens : ∀ e ∈ args, Opens e.render) (hargs : ∀ e ∈ args, self.Takes Closes e.render e)
    (hn : args.length ≤ n) :
    (bracketed self n).Takes (fun _ => True) (render (.construct name args)) (.construct name args) := by
  intro rest _
  have hblank : ∀ e ∈ args, ∀ rest, opensNext ((" " ++ e.render).toList ++ rest) = true ∧
      Closes ((" " ++ e.render).toList ++ rest) := by
    intro e he rest
    rw [String.toList_append, List.append_assoc]
    exact ⟨hargopens e he rest, closes_of_opens (hargopens e he rest)⟩
  have hmany := run_many (fun e he rest => (hblank e he rest).1) (fun _ _ e he rest => (hblank e he rest).2)
    (fun e he => argument_takes (hargs e he)) hn (fun _ _ => separated_parens.closed rest) rfl
  have htext : render (.construct name args) = "(" ++ (render (.construct name []) ++ renderArgs args) ++ ")" := by
    rw [render_construct_nil, render, parensIf, if_pos (by simp [hne])]
    rfl
  rw [htext, renderArgs_eq]
  obtain ⟨e, args, rfl⟩ := List.exists_cons_of_ne_nil hne
  simp only [List.map_cons, String.join_cons, String.toList_append, List.append_assoc] at hmany ⊢
  refine (run_bracketed_applied hopens hname (hargopens e List.mem_cons_self _)).trans ?_
  refine (run_bind_of hmany).trans ?_
  exact run_bind_of (run_expect ")" rest)

theorem bracketed_record {fields : List (String × Expr)} (hlabels : ∀ f ∈ fields, Name.isVariable f.1 = true)
    (hfields : ∀ f ∈ fields, self.Takes Closes f.2.render f.2) (hn : fields.length ≤ n) :
    (bracketed self n).Takes (fun _ => True) (render (.record fields)) (.record fields) := by
  intro rest _
  have hchars : ∀ f ∈ fields, ∀ c ∈ f.1.toList, Name.wordChar c = true := fun f hf c hc =>
    Name.wordChar_of_mem (hlabels f hf) hc
  have hparen : ∀ rest, "(".toList.isPrefixOf ("\x7b ".toList ++ rest) = false := fun _ => rfl
  rw [render, renderFields_eq, bracketed, String.toList_append, String.toList_append, List.append_assoc,
    List.append_assoc, run_bind_of (run_accept_of_not (hparen _)), if_neg Bool.false_ne_true,
    run_bind_of (run_accept "\x7b " _), if_pos rfl]
  exact run_bind_of (run_fields separated_braces ⟨' ', ['\x7d'], rfl, rfl⟩ rfl hchars hfields hn rest)

theorem bracketed_char (c : Char) :
    (bracketed self n).Takes (fun _ => True) (render (.lit (.char c))) (.lit (.char c)) := by
  intro rest _
  have htext : (render (.lit (.char c))).toList ++ rest = "'".toList ++ (c :: ("'".toList ++ rest)) := by
    simp [render, Literal.render]
  rw [htext]
  rfl

/-! ## Keywords -/

/-- What may follow a bound variable with its ascription. -/
structure BinderEnds (ascribed : Option TypeExpr) (rest : List Char) : Prop where
  stops : Stops Name.wordChar rest
  colon : " : ".toList.isPrefixOf rest = false
  type : ascribed.isSome = true → TypeExpr.Ends rest

theorem stops_ascribed (ascribed : Option TypeExpr) {rest : List Char} (h : Stops Name.wordChar rest) :
    Stops Name.wordChar ((renderAscribed ascribed).toList ++ rest) := by
  cases ascribed with
  | none => exact h
  | some t =>
      rw [renderAscribed, String.toList_append, List.append_assoc]
      exact stops_of_head rfl _

theorem binder_takes {name : String} {ascribed : Option TypeExpr} (hname : Name.isVariable name = true)
    (htype : ∀ t ∈ ascribed, (TypeExpr.read n).Takes TypeExpr.Ends t.render t) :
    (binder n).Takes (BinderEnds ascribed) (name ++ renderAscribed ascribed) (name, ascribed) := by
  intro rest hrest
  have hall : ∀ c ∈ name.toList, Name.wordChar c = true := fun c hc => Name.wordChar_of_mem hname hc
  rw [binder, String.toList_append, List.append_assoc,
    run_bind_of (run_word hall (stops_ascribed ascribed hrest.stops))]
  cases ascribed with
  | none => exact run_bind_of (run_accept_of_not hrest.colon)
  | some t =>
      rw [renderAscribed, String.toList_append, List.append_assoc, run_bind_of (run_accept " : " _), if_pos rfl]
      exact run_bind_of (htype t rfl rest (hrest.type rfl))

theorem binderEnds_equals (ascribed : Option TypeExpr) (rest : List Char) :
    BinderEnds ascribed (" = ".toList ++ rest) :=
  ⟨stops_of_head rfl _, rfl, fun _ => ⟨⟨stops_of_head rfl _, rfl⟩, rfl⟩⟩

/-- The keyword at the beginning of an expression decides how it is read. -/
theorem run_read_keyword {k s : String} (hk : Name.isIdentifier Name.variableStart k = true)
    (hname : Token.ofWord k = .name k) (hs : s = k ++ " ") (rest : List Char) :
    (read (n + 1)).run (s.toList ++ rest) = (afterName (read n) n k).run (" ".toList ++ rest) := by
  have hblank : Stops Name.wordChar (" ".toList ++ rest) := stops_of_head rfl _
  rw [hs, String.toList_append, List.append_assoc, read, run_bind_of ((spells_word hk).taken _ hblank), hname,
    afterToken]

theorem read_lam {param : String} {ascribed : Option TypeExpr} {body : Expr}
    (hparam : Name.isVariable param = true)
    (htype : ∀ t ∈ ascribed, (TypeExpr.read n).Takes TypeExpr.Ends t.render t)
    (hbody : (read n).Takes (Ends body) body.render body) :
    (read (n + 1)).Takes (Ends (.lam param ascribed body)) (render (.lam param ascribed body))
      (.lam param ascribed body) := by
  intro rest hrest
  have hbinder := binder_takes hparam htype
  simp only [render, String.toList_append, List.append_assoc]
  refine (run_read_keyword (k := "fun") rfl rfl rfl _).trans ?_
  rw [afterName, if_pos rfl, lambda, run_bind_of (run_expect " " _)]
  cases ascribed with
  | none =>
      have hbegins : BeginsWith Name.wordChar param := by
        obtain ⟨⟨c, cs, hcs, -⟩, hall⟩ := Name.isIdentifier_iff.mp (Name.isVariable_iff.mp hparam).1
        exact ⟨c, cs, hcs, hall c (hcs ▸ List.mem_cons_self)⟩
      have harrow : BinderEnds none (" -> ".toList ++ (body.render.toList ++ rest)) :=
        ⟨stops_of_head rfl _, rfl, fun h => absurd h Bool.false_ne_true⟩
      rw [renderAscribed, String.append_empty] at hbinder
      rw [renderParam, renderAscribed, String.append_empty, parensIf, if_neg (by simp),
        run_bind_of (hbegins.run_accept ⟨'(', [], rfl, rfl⟩ _), run_bind_of (hbinder _ harrow),
        if_neg Bool.false_ne_true, run_bind_of (run_expect " -> " _)]
      exact run_bind_of (hbody rest hrest)
  | some t =>
      have hclose : BinderEnds (some t) (") -> ".toList ++ (body.render.toList ++ rest)) :=
        ⟨stops_of_head rfl _, rfl, fun _ => ⟨⟨stops_of_head rfl _, rfl⟩, rfl⟩⟩
      have htext : (renderParam param (some t)).toList ++ (" -> ".toList ++ (body.render.toList ++ rest)) =
          "(".toList ++ ((param ++ renderAscribed (some t)).toList ++
            (") -> ".toList ++ (body.render.toList ++ rest))) := by
        simp [renderParam, parensIf, parens]
      rw [htext, run_bind_of (run_accept "(" _), run_bind_of (hbinder _ hclose), if_pos rfl,
        run_bind_of (run_expect ") -> " _)]
      exact run_bind_of (hbody rest hrest)

/-- No name of a variable is taken for the mark of a recursive definition. -/
theorem isPrefixOf_rec_eq_false {name : String} (hname : Name.isVariable name = true) {rest : List Char}
    (hrest : Stops Name.wordChar rest) : "rec ".toList.isPrefixOf (name.toList ++ rest) = false := by
  refine Bool.eq_false_iff.mpr fun hprefix => ?_
  obtain ⟨t, ht⟩ := List.isPrefixOf_iff_prefix.mp hprefix
  have hword := run_word (fun c hc => Name.wordChar_of_mem hname hc) hrest
  have hrec : (word Name.wordChar).run ("rec".toList ++ ' ' :: t) = some ("rec", ' ' :: t) :=
    run_word (List.all_eq_true.mp rfl) (stops_of_head rfl _)
  rw [← ht] at hword
  -- Both are the word that is read next.
  have hsame : name = "rec" := congrArg Prod.fst (Option.some.inj (hword.symm.trans hrec))
  exact Name.ne_of_isVariable hname (by decide) hsame

section Definitions

variable {name : String} {ascribed : Option TypeExpr} {value body : Expr}
  (hname : Name.isVariable name = true)
  (htype : ∀ t ∈ ascribed, (TypeExpr.read n).Takes TypeExpr.Ends t.render t)
  (hvalue : (read n).Takes Closes value.render value) (hbody : (read n).Takes (Ends body) body.render body)

include hname htype hvalue hbody

theorem definitionOf_takes (form : String → Option TypeExpr → Expr → Expr → Expr) :
    (definitionOf (read n) n form).Takes (Ends body)
      (name ++ renderAscribed ascribed ++ " = " ++ value.render ++ " in " ++ body.render)
      (form name ascribed value body) := by
  intro rest hrest
  simp only [String.toList_append, List.append_assoc]
  have hbinder := binder_takes hname htype _
    (binderEnds_equals ascribed (value.render.toList ++ (" in ".toList ++ (body.render.toList ++ rest))))
  rw [String.toList_append, List.append_assoc] at hbinder
  rw [definitionOf, run_bind_of hbinder, run_bind_of (run_expect " = " _),
    run_bind_of (hvalue _ (closes_text " in " rfl _)), run_bind_of (run_expect " in " _)]
  exact run_bind_of (hbody rest hrest)

theorem read_letIn : (read (n + 1)).Takes (Ends (.letIn name ascribed value body))
    (render (.letIn name ascribed value body)) (.letIn name ascribed value body) := by
  intro rest hrest
  have hdefinition := definitionOf_takes hname htype hvalue hbody .letIn rest hrest
  have hrec : ∀ rest, "rec ".toList.isPrefixOf (name.toList ++ ((renderAscribed ascribed).toList ++
      (" = ".toList ++ rest))) = false := by
    intro rest
    exact isPrefixOf_rec_eq_false hname (stops_ascribed ascribed (binderEnds_equals ascribed rest).stops)
  simp only [render, String.toList_append, List.append_assoc] at hdefinition ⊢
  refine (run_read_keyword (k := "let") rfl rfl rfl _).trans ?_
  rw [afterName, if_neg (by decide), if_pos rfl, definition, run_bind_of (run_expect " " _),
    run_bind_of (run_accept_of_not (hrec _)), if_neg Bool.false_ne_true, hdefinition]

theorem read_letRec : (read (n + 1)).Takes (Ends (.letRec name ascribed value body))
    (render (.letRec name ascribed value body)) (.letRec name ascribed value body) := by
  intro rest hrest
  have hdefinition := definitionOf_takes hname htype hvalue hbody .letRec rest hrest
  have hkey : "let rec ".toList = "let ".toList ++ "rec ".toList := rfl
  simp only [render, String.toList_append, List.append_assoc] at hdefinition ⊢
  rw [hkey, List.append_assoc]
  refine (run_read_keyword (k := "let") rfl rfl rfl _).trans ?_
  rw [afterName, if_neg (by decide), if_pos rfl, definition, run_bind_of (run_expect " " _),
    run_bind_of (run_accept "rec " _), if_pos rfl, hdefinition]

end Definitions

theorem read_ite {c t e : Expr} (hc : (read n).Takes Closes c.render c) (ht : (read n).Takes Closes t.render t)
    (he : (read n).Takes (Ends e) e.render e) :
    (read (n + 1)).Takes (Ends (.ite c t e)) (render (.ite c t e)) (.ite c t e) := by
  intro rest hrest
  simp only [render, String.toList_append, List.append_assoc]
  refine (run_read_keyword (k := "if") rfl rfl rfl _).trans ?_
  rw [afterName, if_neg (by decide), if_neg (by decide), if_pos rfl, conditional,
    run_bind_of (run_expect " " _), run_bind_of (hc _ (closes_text " then " rfl _)),
    run_bind_of (run_expect " then " _), run_bind_of (ht _ (closes_text " else " rfl _)),
    run_bind_of (run_expect " else " _)]
  exact run_bind_of (he rest hrest)

theorem arm_takes {p : Pattern} {e : Expr} (hp : (Pattern.read n).Takes Pattern.Ends p.render p)
    (he : self.Takes (Ends e) e.render e) :
    (arm self n).Takes (Ends e) (" | " ++ p.render ++ " -> " ++ e.render) (p, e) := by
  intro rest hrest
  have harrow : Pattern.Ends (" -> ".toList ++ (e.render.toList ++ rest)) := ⟨stops_of_head rfl _, rfl⟩
  simp only [String.toList_append, List.append_assoc]
  rw [arm, run_bind_of (run_expect " | " _), run_bind_of (hp _ harrow), run_bind_of (run_expect " -> " _)]
  exact run_bind_of (he rest hrest)

/-- The arms of a match are read up to its end, where only the last one may end in another match. -/
theorem run_arms {arms : List (Pattern × Expr)} (hlast : ∀ a ∈ arms.dropLast, a.2.endsInMatch = false)
    (hpatterns : ∀ a ∈ arms, (Pattern.read n).Takes Pattern.Ends a.1.render a.1)
    (hbodies : ∀ a ∈ arms, self.Takes (Ends a.2) a.2.render a.2) (hn : arms.length ≤ n) {rest : List Char}
    (hrest : ∀ a ∈ arms, Ends a.2 rest) (hbar : " | ".toList.isPrefixOf rest = false) :
    (many (" | ".toList.isPrefixOf ·) (arm self n) n).run ((renderArms arms).toList ++ rest) =
      some (arms, rest) := by
  rw [renderArms_eq]
  refine run_many (fun a ha rest => ?_) (fun a ha b hb rest => ?_)
    (fun a ha => arm_takes (hpatterns a ha) (hbodies a ha)) hn hrest hbar
  · simp only [String.toList_append, List.append_assoc]
    rfl
  · simp only [String.toList_append, List.append_assoc]
    refine ⟨stops_of_head rfl _, fun h => ?_⟩
    rw [hlast a ha] at h
    cases h

theorem run_read_match {scrutinee : Expr} {arms : List (Pattern × Expr)} {rest : List Char}
    (hscrutinee : (read n).Takes Closes scrutinee.render scrutinee)
    (harms : (many (" | ".toList.isPrefixOf ·) (arm (read n) n) n).run ((renderArms arms).toList ++ rest) =
      some (arms, rest)) :
    (read (n + 1)).run ((render (.matchOn scrutinee arms)).toList ++ rest) =
      (if arms.isEmpty then accesses (read n) n (.matchOn scrutinee []) else return .matchOn scrutinee arms).run
        rest := by
  simp only [render, String.toList_append, List.append_assoc]
  refine (run_read_keyword (k := "match") rfl rfl rfl _).trans ?_
  rw [afterName, if_neg (by decide), if_neg (by decide), if_neg (by decide), if_pos rfl, matching,
    run_bind_of (run_expect " " _), run_bind_of (hscrutinee _ (closes_text " with" rfl _)),
    run_bind_of (run_expect " with" _), run_bind_of harms]

end Forms

/-! ## All expressions -/

/-- At every depth that is large enough, the expression is read. -/
def Taken (e : Expr) : Prop := ∀ᶠ n in atTop, (read n).Takes (Ends e) e.render e

/-- At every depth that is large enough, the expression is read and the reader is about to go on with what is
selected from it.  Depth is also what bounds the number of selections, some of which have been read. -/
def Headed (e : Expr) : Prop :=
  ∃ d, ∀ᶠ n in atTop, ∀ rest, Stops Name.wordChar rest →
    (e.endsInMatch = true → " | ".toList.isPrefixOf rest = false) →
    (read (n + 1)).run (e.render.toList ++ rest) = (accesses (read n) (n - d) e).run rest

theorem Taken.closes {e : Expr} (h : e.Taken) : ∀ᶠ n in atTop, (read n).Takes Closes e.render e :=
  h.mono fun _ h => h.mono fun _ hrest => hrest.ends e

theorem eventually_closes {es : List Expr} (h : ∀ e ∈ es, e.Taken) :
    ∀ᶠ n in atTop, ∀ e ∈ es, (read n).Takes Closes e.render e :=
  eventually_forall_mem fun e he => (h e he).closes

theorem eventually_ascribed {ascribed : Option TypeExpr} (h : ascribed.all TypeExpr.lexical = true) :
    ∀ᶠ n in atTop, ∀ t ∈ ascribed, (TypeExpr.read n).Takes TypeExpr.Ends t.render t := by
  cases ascribed with
  | none => exact .of_forall fun n => by simp
  | some t =>
      filter_upwards [(TypeExpr.readable_of_lexical h).eventually_taken] with n hn
      rintro u ⟨⟩
      exact hn.whole

/-- An expression after which the reader goes on is read where nothing more comes. -/
theorem Headed.taken {e : Expr} (h : e.Headed) : e.Taken := by
  obtain ⟨d, h⟩ := h
  refine eventually_of_succ (h.mono fun n h rest hrest => ?_)
  rw [h rest (stops_of_dotted hrest.1) hrest.2]
  exact run_accesses_end hrest.1

theorem headed_of_spells {e : Expr} {t : Token} (hspells : Spells e.render t)
    (ht : ∀ n, afterToken (read n) n t = accesses (read n) n e) : e.Headed := by
  refine ⟨0, .of_forall fun n rest hrest _ => ?_⟩
  rw [read, run_bind_of (hspells.taken rest hrest), ht]
  rfl

theorem headed_of_bracketed {e : Expr}
    (hbegins : BeginsWith (fun c => !(Name.wordChar c || c == '-')) e.render)
    (h : ∀ᶠ n in atTop, (bracketed (read n) n).Takes (fun _ => True) e.render e) : e.Headed := by
  refine ⟨0, h.mono fun n h rest _ _ => ?_⟩
  obtain ⟨c, cs, hcs, hc⟩ := hbegins
  rw [Bool.not_eq_true', Bool.or_eq_false_iff, beq_eq_false_iff_ne] at hc
  have htoken : token.run (e.render.toList ++ rest) = some (.name "", e.render.toList ++ rest) := by
    refine run_token (w := "") (by simp) ?_ ?_
    · rw [hcs]
      exact stops_of_head hc.1 _
    · rw [hcs]
      simp [List.isPrefixOf, hc.2.symm]
  rw [read, run_bind_of htoken]
  exact run_bind_of (h rest trivial)

theorem headed_of_selection {start : Char → Bool} {e e' : Expr} {w : String} (he : e.Headed)
    (hw : Name.isIdentifier start w = true) (hselect : selection e w = e')
    (htext : e'.render = e.render ++ "." ++ w) : e'.Headed := by
  obtain ⟨d, he⟩ := he
  refine ⟨d + 1, ?_⟩
  filter_upwards [he, eventually_ge_atTop (d + 1)] with n he hn rest hrest _
  have hdot : Stops Name.wordChar (".".toList ++ (w.toList ++ rest)) := stops_of_head rfl _
  -- One of the selections that the depth allows for is read.
  have hsplit : n - d = n - (d + 1) + 1 := by omega
  rw [htext, String.toList_append, String.toList_append, List.append_assoc, List.append_assoc,
    he _ hdot fun _ => rfl, hsplit, run_accesses_dot hw hrest, hselect]

theorem taken_range {first last : Expr} (hfirst : first.Headed) (hlast : last.Taken) :
    (Expr.range first last).Taken := by
  obtain ⟨d, hfirst⟩ := hfirst
  refine eventually_of_succ ?_
  filter_upwards [hfirst, hlast, eventually_ge_atTop (d + 1)] with n hfirst hlast hn rest hrest
  have hdot : Stops Name.wordChar ("..".toList ++ (last.render.toList ++ rest)) := stops_of_head rfl _
  have hsplit : n - d = n - (d + 1) + 1 := by omega
  rw [render, String.toList_append, String.toList_append, List.append_assoc, List.append_assoc,
    hfirst _ hdot fun _ => rfl, hsplit, run_accesses_range hlast hrest]

theorem afterName_variable {w : String} (h : Name.isVariable w = true) (self : Reader Expr) (n : Nat) :
    afterName self n w = accesses self n (.var w) := by
  have hempty : w ≠ "" := by
    rintro rfl
    cases h
  rw [afterName, if_neg (Name.ne_of_isVariable h (by decide)), if_neg (Name.ne_of_isVariable h (by decide)),
    if_neg (Name.ne_of_isVariable h (by decide)), if_neg (Name.ne_of_isVariable h (by decide)), if_neg hempty]

/-- What is to be shown of an expression: it is taken from its text, and if it is not open then the reader can go
on with what is selected from it. -/
structure ReadBack (e : Expr) : Prop where
  opens : Opens e.render
  taken : e.Taken
  headed : e.isOpen = false → e.Headed

theorem headed_construct {name : String} {args : List Expr} (hname : Name.isCapitalized name = true)
    (hargs : ∀ e ∈ args, e.ReadBack) : (Expr.construct name args).Headed := by
  have hspells : Spells (render (.construct name [])) (.capitalized name) := by
    rw [render_construct_nil]
    exact spells_capitalized hname
  have hbare : (Expr.construct name []).Headed := headed_of_spells hspells fun _ => rfl
  by_cases hne : args = []
  · rwa [hne]
  · refine headed_of_bracketed ?_ ?_
    · rw [render, parensIf, if_pos (by simp [hne])]
      exact (BeginsWith.append ⟨'(', [], rfl, rfl⟩ _).append _
    · filter_upwards [hbare.taken.closes, eventually_closes fun e he => (hargs e he).taken,
        eventually_ge_atTop args.length] with n hbare htaken hn
      exact bracketed_construct hne hspells.opens hbare (fun e he => (hargs e he).opens) htaken hn

theorem eventually_arms {arms : List (Pattern × Expr)} (hvalid : arms.all (fun a => a.1.lexical) = true)
    (hends : arms.dropLast.all (fun a => !a.2.endsInMatch) = true) (hbodies : ∀ a ∈ arms, a.2.ReadBack) :
    ∀ᶠ n in atTop, ∀ rest, (∀ a ∈ arms, Ends a.2 rest) → " | ".toList.isPrefixOf rest = false →
      (many (" | ".toList.isPrefixOf ·) (arm (read n) n) n).run ((renderArms arms).toList ++ rest) =
        some (arms, rest) := by
  have hpatterns : ∀ᶠ n in atTop, ∀ a ∈ arms, Pattern.Taken n a.1 :=
    eventually_forall_mem fun a ha => Pattern.eventually_taken (List.all_eq_true.mp hvalid a ha)
  have htaken : ∀ᶠ n in atTop, ∀ a ∈ arms, (read n).Takes (Ends a.2) a.2.render a.2 :=
    eventually_forall_mem fun a ha => (hbodies a ha).taken
  have hlast : ∀ a ∈ arms.dropLast, a.2.endsInMatch = false := fun a ha =>
    (Bool.not_eq_true' _).mp (List.all_eq_true.mp hends a ha)
  filter_upwards [hpatterns, htaken, eventually_ge_atTop arms.length] with n hpatterns htaken hn rest hrest hbar
  exact run_arms hlast (fun a ha => (hpatterns a ha).whole) htaken hn hrest hbar

/-- A match without arms can be gone on with, and a match with arms is taken up to its end. -/
theorem readBack_matchOn {scrutinee : Expr} {arms : List (Pattern × Expr)}
    (hvalid : arms.all (fun a => a.1.lexical) = true)
    (hends : arms.dropLast.all (fun a => !a.2.endsInMatch) = true) (hscrutinee : scrutinee.ReadBack)
    (hbodies : ∀ a ∈ arms, a.2.ReadBack) :
    (Expr.matchOn scrutinee arms).Taken ∧ (arms = [] → (Expr.matchOn scrutinee arms).Headed) := by
  have hread := hscrutinee.taken.closes.and (eventually_arms hvalid hends hbodies)
  have hheaded : arms = [] → (Expr.matchOn scrutinee arms).Headed := by
    rintro rfl
    refine ⟨0, hread.mono fun n hread rest _ hbar => ?_⟩
    rw [run_read_match hread.1 (hread.2 rest (List.forall_mem_nil _) (hbar rfl)), if_pos (by simp)]
    rfl
  refine ⟨?_, hheaded⟩
  by_cases hne : arms = []
  · exact (hheaded hne).taken
  · refine eventually_of_succ (hread.mono fun n hread rest hrest => ?_)
    -- A match ends in a match, so that no arm comes next, whatever its last arm ends in.
    have hclose : Closes rest := ⟨hrest.1, hrest.2 rfl⟩
    rw [run_read_match hread.1 (hread.2 rest (fun a _ => hclose.ends a.2) hclose.2), if_neg (by simp [hne])]
    rfl

/-- The step of the induction on expressions. -/
theorem readBack_of_children {e : Expr} (hvalid : e.validHere = true) (hends : e.delimitedHere = true)
    (hparts : ∀ c ∈ e.children, c.ReadBack) : e.ReadBack := by
  have hopens : Opens e.render := opens_of_children hvalid fun c hc => (hparts c hc).opens
  -- What is not open is shown to be headed, and what is open only has to be taken.
  have of_headed : e.Headed → e.ReadBack := fun h => ⟨hopens, h.taken, fun _ => h⟩
  have of_taken : e.isOpen = true → e.Taken → e.ReadBack := fun ho h => ⟨hopens, h, fun hc => by simp [ho] at hc⟩
  cases e with
  | lit l =>
      cases l with
      | int v => exact of_headed (headed_of_spells (spells_int v) fun _ => rfl)
      | bool b => exact of_headed (headed_of_spells (spells_bool b) fun _ => rfl)
      | char c =>
          refine of_headed (headed_of_bracketed ?_ (.of_forall fun n => bracketed_char c))
          exact (BeginsWith.append ⟨'\'', [], rfl, rfl⟩ _).append _
  | var name => exact of_headed (headed_of_spells (spells_variable hvalid) fun _ => afterName_variable hvalid _ _)
  | lam param ascribed body =>
      rw [validHere, Bool.and_eq_true] at hvalid
      refine of_taken rfl (eventually_of_succ ?_)
      filter_upwards [eventually_ascribed hvalid.2, (hparts body (by simp [children])).taken] with n htype hbody
      exact read_lam hvalid.1 htype hbody
  | app fn arg =>
      have hfn := hparts fn (by simp [children])
      have harg := hparts arg (by simp [children])
      refine of_headed (headed_of_bracketed ?_ ?_)
      · exact (((BeginsWith.append ⟨'(', [], rfl, rfl⟩ _).append _).append _).append _
      · filter_upwards [hfn.taken.closes, harg.taken.closes] with n htfn htarg
        exact bracketed_app (Option.isNone_iff_eq_none.mp hends) hfn.opens harg.opens htfn htarg
  | letIn name ascribed value body =>
      rw [validHere, Bool.and_eq_true] at hvalid
      refine of_taken rfl (eventually_of_succ ?_)
      filter_upwards [eventually_ascribed hvalid.2, (hparts value (by simp [children])).taken.closes,
        (hparts body (by simp [children])).taken] with n htype hvalue hbody
      exact read_letIn hvalid.1 htype hvalue hbody
  | letRec name ascribed value body =>
      rw [validHere, Bool.and_eq_true] at hvalid
      refine of_taken rfl (eventually_of_succ ?_)
      filter_upwards [eventually_ascribed hvalid.2, (hparts value (by simp [children])).taken.closes,
        (hparts body (by simp [children])).taken] with n htype hvalue hbody
      exact read_letRec hvalid.1 htype hvalue hbody
  | ite c t e =>
      refine of_taken rfl (eventually_of_succ ?_)
      filter_upwards [(hparts c (by simp [children])).taken.closes, (hparts t (by simp [children])).taken.closes,
        (hparts e (by simp [children])).taken] with n hc ht he
      exact read_ite hc ht he
  | binop op l r =>
      have hl := hparts l (by simp [children])
      refine of_headed (headed_of_bracketed ?_ ?_)
      · exact (((((BeginsWith.append ⟨'(', [], rfl, rfl⟩ _).append _).append _).append _).append _).append _
      · filter_upwards [hl.taken.closes, (hparts r (by simp [children])).taken.closes] with n htl htr
        exact bracketed_binop (mem_operators hvalid) hl.opens htl htr
  | construct name args => exact of_headed (headed_construct hvalid hparts)
  | tuple elems =>
      refine of_headed (headed_of_bracketed ?_ ?_)
      · exact (BeginsWith.append ⟨'(', [], rfl, rfl⟩ _).append _
      · filter_upwards [eventually_closes fun e he => (hparts e he).taken, eventually_ge_atTop elems.length]
          with n htaken hn
        exact bracketed_tuple (bne_iff_ne.mp hvalid) (fun e he => (hparts e he).opens) htaken hn
  | proj e index =>
      have he := (hparts e (by simp [children])).headed ((Bool.not_eq_true' _).mp hends)
      exact of_headed (headed_of_selection he (Name.isIdentifier_repr index) (selection_repr e index) rfl)
  | record fields =>
      rw [validHere, List.all_eq_true] at hvalid
      refine of_headed (headed_of_bracketed ?_ ?_)
      · exact (BeginsWith.append ⟨'\x7b', [' '], rfl, rfl⟩ _).append _
      · have hfields : ∀ f ∈ fields, f.2.ReadBack := List.forall_mem_map.mp hparts
        filter_upwards [eventually_forall_mem fun f hf => (hfields f hf).taken.closes,
          eventually_ge_atTop fields.length] with n htaken hn
        exact bracketed_record hvalid htaken hn
  | access e field =>
      have he := (hparts e (by simp [children])).headed ((Bool.not_eq_true' _).mp hends)
      exact of_headed (headed_of_selection he (Name.isVariable_iff.mp hvalid).1 (selection_variable e hvalid) rfl)
  | range first last =>
      have hfirst := (hparts first (by simp [children])).headed ((Bool.not_eq_true' _).mp hends)
      exact of_taken rfl (taken_range hfirst (hparts last (by simp [children])).taken)
  | matchOn scrutinee arms =>
      have hbodies : ∀ a ∈ arms, a.2.ReadBack := List.forall_mem_map.mp fun e he =>
        hparts e (List.mem_cons_of_mem _ he)
      have hmatch := readBack_matchOn hvalid hends (hparts scrutinee List.mem_cons_self) hbodies
      exact ⟨hopens, hmatch.1, fun hopen => hmatch.2 (by simpa [isOpen] using hopen)⟩

theorem readBack {e : Expr} (hlexical : e.lexical = true) (hdelimited : e.delimited = true) : e.ReadBack := by
  induction e using induct_children with
  | step e ih =>
      have hvalid := all_iff.mp hlexical
      have hends := all_iff.mp hdelimited
      exact readBack_of_children hvalid.1 hends.1 fun c hc => ih c hc (hvalid.2 c hc) (hends.2 c hc)

end Expr

end Polytype
