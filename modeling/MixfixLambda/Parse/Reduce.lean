import MixfixLambda.Parse.State

/-!
# Reduction

Taking pending operators off the parser once their operands are complete. Each reduction takes at least
one pending operator and leaves an operand, so that every loop here ends
(`reduceTop_pending_length`).
-/
namespace MixfixLambda.Parser

/-- Notes on the innermost open bracket that a section was found in it. -/
def markSection : List Pending → List Pending
  | [] => []
  | p :: below => if p.rule.isOpener then { p with sectioned := true } :: below else p :: markSection below

@[simp]
theorem length_markSection (ps : List Pending) : (markSection ps).length = ps.length := by
  induction ps with
  | nil => rfl
  | cons p ps ih => unfold markSection; split <;> simp [ih]

/-- Collects a chain such as `if c then a else b` from its last part back to its first one. `parts` and
`operands` hold what comes behind `current`. -/
def reduceMixfix (p : Parser) (parts : List Tag) (operands : List Tree) (current : Pending)
    (below : List Pending) : Parsing (Tree × List Pending) :=
  match current.rule.prior, below with
  | none, below =>
    if current.rule.fixity = .infixOp then
      match current.left with
      | some left => .ok (.mixfix (current.tag :: parts) (left :: operands), below)
      | none => p.refuseOperand current.tag
    else .ok (.mixfix (current.tag :: parts) operands, below)
  | some _, [] => p.refuseOperand current.tag
  | some prior, previous :: rest =>
    match current.left with
    | none => p.refuseOperand current.tag
    | some left =>
      if previous.rule.symbol = prior then
        reduceMixfix p (current.tag :: parts) (left :: operands) previous rest
      else p.refuse (.priorMismatch current.tag.text prior) current.tag.span

/-- Registers the rules of a declaration in turn, up to the first that is refused. -/
def registerRules (p : Parser) : List (Tag × Rule) → Parsing Parser
  | [] => .ok p
  | (tag, rule) :: rules =>
    match p.registry.register rule with
    | some registry => registerRules { p with registry } rules
    | none => p.refuse (.syntaxRedefinition rule.symbol) tag.span

/-- Puts a declaration into force. -/
def declare (p : Parser) (kind : DeclarationKind) (keyword : Tag) (operand : Tree) :
    Parsing (Parser × Tree) :=
  match Declaration.ofOperand kind keyword operand with
  | .error error => .error ⟨error, p.registry⟩
  | .ok declaration =>
    match p.registerRules declaration.rules with
    | .error refusal => .error refusal
    | .ok p => .ok (p, .declaration declaration)

/-- Reduces the newest pending operator with its right operand; `below` are the operators under it. -/
def reduceTop (p : Parser) (top : Pending) (below : List Pending) (right : Tree) : Parsing Parser :=
  if top.rule.prior.isSome then
    match p.reduceMixfix [] [right] top below with
    | .error refusal => .error refusal
    | .ok (tree, below) => .ok { p with operand := some tree, pending := below }
  else if top.rule.fixity = .prefixOp then
    match top.rule.reduction with
    | .erase => .ok { p with operand := some right, pending := below }
    | .declare kind =>
      match p.declare kind top.tag right with
      | .error refusal => .error refusal
      | .ok (p, tree) => .ok { p with operand := some tree, pending := below }
    | _ => .ok { p with operand := some (.prefixOp top.tag right), pending := below }
  else if top.missingLeft then
    let left := Tree.placeholder (Span.point top.tag.span.start)
    .ok { p with
      operand := some (Tree.ofInfix top.rule.reduction top.tag left right)
      pending := markSection below }
  else
    match top.left with
    | some left =>
      .ok { p with
        operand := some (Tree.ofInfix top.rule.reduction top.tag left right)
        pending := below }
    | none => p.refuseOperand top.tag

theorem reduceMixfix_length {p : Parser} {parts : List Tag} {operands : List Tree}
    {current : Pending} {below rest : List Pending} {t : Tree}
    (ok : p.reduceMixfix parts operands current below = .ok (t, rest)) :
    rest.length ≤ below.length := by
  fun_induction reduceMixfix p parts operands current below with
  | case1 | case3 => simp_all
  | case6 _ _ _ _ _ _ _ _ ih => exact Nat.le_succ_of_le (ih ok)
  | _ => simp [refuseOperand, refuse] at ok

theorem registerRules_keeps {p q : Parser} {rules : List (Tag × Rule)}
    (ok : p.registerRules rules = .ok q) :
    q = { p with registry := q.registry } := by
  fun_induction registerRules p rules with
  | case1 => simp_all
  | case2 p tag rule rules registry h ih => rw [ih ok]
  | case3 => simp [refuse] at ok

theorem declare_keeps {p q : Parser} {kind : DeclarationKind} {keyword : Tag} {operand t : Tree}
    (ok : p.declare kind keyword operand = .ok (q, t)) :
    q = { p with registry := q.registry } := by
  unfold declare at ok
  split at ok
  · cases ok
  · split at ok
    · cases ok
    · rename_i h
      cases ok
      exact registerRules_keeps h

theorem reduceTop_pending_length {p q : Parser} {top : Pending} {below : List Pending} {right : Tree}
    (ok : p.reduceTop top below right = .ok q) : q.pending.length ≤ below.length := by
  unfold reduceTop at ok
  split at ok
  · split at ok
    · cases ok
    · rename_i h
      cases ok
      exact reduceMixfix_length h
  · split at ok
    · split at ok
      · cases ok; exact Nat.le_refl _
      · split at ok
        · cases ok
        · cases ok; exact Nat.le_refl _
      · cases ok; exact Nat.le_refl _
    · split at ok
      · cases ok; simp
      · split at ok
        · cases ok; exact Nat.le_refl _
        · simp [refuseOperand, refuse] at ok

/-- Whether a pending operator takes the operand behind it before an incoming operator may. Operators of
one precedence have to agree on how they group. -/
def bindsTighter (p : Parser) (top : Pending) (incoming : Rule) (tag : Tag) : Parsing Bool :=
  if top.rule.right ≠ incoming.left then .ok (incoming.left < top.rule.right)
  else
    match top.rule.assoc, incoming.assoc with
    | .left, .left => .ok true
    | .right, .right => .ok false
    | _, _ => p.refuse (.nonAssociative top.tag.text tag.text) (top.tag.span.merge tag.span)

/-- Reduces the operators of the innermost bracket that bind tighter than an incoming one. The operator
of a left section stays the root of its parentheses. -/
def reduceLeft (p : Parser) (incoming : Rule) (tag : Tag) : Parsing Parser :=
  match p.operand, _ : p.pending with
  | some right, top :: below =>
    if top.rule.isOpener then .ok p
    else
      match p.bindsTighter top incoming tag with
      | .error refusal => .error refusal
      | .ok false => .ok p
      | .ok true =>
        if top.missingLeft then p.refuseOperand top.tag
        else
          match _ : p.reduceTop top below right with
          | .error refusal => .error refusal
          | .ok q => reduceLeft q incoming tag
  | _, _ => .ok p
termination_by p.pending.length
decreasing_by
  have := reduceTop_pending_length ‹_›
  simp only [*, List.length_cons]
  omega

/-- Reduces everything of the innermost bracket down to the operator that an incoming one continues. -/
def reduceToPrior (p : Parser) (prior : String) (tag : Tag) : Parsing Parser :=
  match p.operand, _ : p.pending with
  | some right, top :: below =>
    if top.rule.isOpener then p.refuse (.priorMismatch tag.text prior) tag.span
    else if top.rule.symbol = prior then .ok p
    else
      match _ : p.reduceTop top below right with
      | .error refusal => .error refusal
      | .ok q => reduceToPrior q prior tag
  | _, _ => p.refuseOperand tag
termination_by p.pending.length
decreasing_by
  have := reduceTop_pending_length ‹_›
  simp only [*, List.length_cons]
  omega

/-- Reduces everything of the innermost bracket. -/
def reduceToOpener (p : Parser) : Parsing Parser :=
  match _ : p.pending with
  | [] => p.refuse (.missingOpen "end of file") Span.origin
  | top :: below =>
    if top.rule.isOpener then .ok p
    else
      match p.operand with
      | none => p.refuseOperand top.tag
      | some right =>
        match _ : p.reduceTop top below right with
        | .error refusal => .error refusal
        | .ok q => reduceToOpener q
termination_by p.pending.length
decreasing_by
  have := reduceTop_pending_length ‹_›
  simp only [*, List.length_cons]
  omega

end MixfixLambda.Parser
