import AdaptiveLL.Proofs.Grammar.Kinds
import AdaptiveLL.Proofs.Grammar.Returns
import AdaptiveLL.Proofs.Operators.Expressions

/-!
# How a grammar of expressions is laid out

A grammar of expressions has two rules: the start rule asks for an expression and the end of the input, and
the rule of expressions is left-recursive, with one token as its primary and binary operators of one token
each. Where the states of the two rules lie follows from where their bodies begin.
-/

set_option autoImplicit false

namespace AdaptiveLL.Operators

open Layout Network

variable {g : Grammar} {net : Network} {seg : Segment} {el : Element} {r lo hi : Nat} {v q : Int}

/-! ## Grammars of expressions -/

/-- The element stands for one token type. -/
inductive Names (g : Grammar) : Element → Int → Prop
  | symbol (v : Int) : Names g (.symbol v) v
  | token {name : String} {type : Nat} (known : g.vocabulary.tokenType name = some type) :
      Names g (.token name) type
  | literal {text : String} {type : Nat} (known : g.vocabulary.tokenType ("'" ++ text ++ "'") = some type) :
      Names g (.literal text) type

/-- The two rules of a grammar of expressions. The operators come with the elements that stand for them, the
tightest first. -/
structure Describes (g : Grammar) (s e : Nat) (expr : String) (primary : Element)
    (ops : List (Element × Infix)) : Prop where
  assembled : g.Assembled
  parser : g.isLexer = false
  two : g.rules.length = 2
  apart : s ≠ e
  index : g.ruleIndex expr = .ok e
  start : ∃ r, g.rules[s]? = some r ∧ r.body = .seq [.rule expr 0, .eof] ∧ r.leftRecursive = false
  recursive : ∃ r, g.rules[e]? = some r ∧
    r.body = Operator.body expr [primary] (ops.map fun o => .binary o.1 o.2.assoc) ∧ r.leftRecursive = true

/-! ## The parts of the bodies -/

theorem laid_names (names : Names g el v) (parser : g.isLexer = false) (laid : net.Laid g r el seg lo hi) :
    seg = ⟨lo, lo + 1⟩ ∧ hi = lo + 2 ∧ net.out lo = [⟨lo + 1, atomLabel v⟩] := by
  have leaf {e : Element} {label : Label} (labelled : LeafLabel g r e label) (names : Names g e v) :
      label = atomLabel v := by
    cases names with
    | symbol v => cases labelled; rfl
    | token known =>
      cases labelled with
      | token known' => rw [Option.some.inj (known'.symm.trans known)]
    | literal known =>
      cases labelled with
      | literal _ known' => rw [Option.some.inj (known'.symm.trans known)]
  cases laid with
  | leaf labelled edge => exact ⟨rfl, rfl, by rw [edge, leaf labelled names]⟩
  | literal lexer => rw [parser] at lexer; cases lexer
  | call | nothing | seq | only | alt | repeated => cases names

/-- How tightly the operators in the right operand have to bind. -/
def nextOf (assoc : Assoc) (q : Int) : Int :=
  match assoc with
  | .left => q + 1
  | .right => q

/-- What follows the first operand of an operator lies on six states. -/
structure Tail (net : Network) (e : Nat) (q next : Int) (label : Label) (n : Nat) : Prop where
  guard : net.out n = [⟨n + 1, .precedence q⟩]
  guarded : net.out (n + 1) = [.epsilon (n + 2)]
  token : net.out (n + 2) = [⟨n + 3, label⟩]
  matched : net.out (n + 3) = [.epsilon (n + 4)]
  operand : net.out (n + 4) = [⟨net.ruleStart e, .rule e next (n + 5)⟩]

theorem laid_tail {expr : String} {e : Nat} {assoc : Assoc} (names : Names g el v) (parser : g.isLexer = false)
    (known : g.ruleIndex expr = .ok e)
    (laid : net.Laid g r ((Operator.binary el assoc).tail expr q) seg lo hi) :
    seg = ⟨lo, lo + 5⟩ ∧ hi = lo + 6 ∧ Tail net e q (nextOf assoc q) (atomLabel v) lo := by
  simp only [Operator.tail] at laid
  cases laid with
  | leaf labelled => cases labelled
  | seq parts chained =>
    obtain _ | ⟨guard, parts⟩ := parts
    obtain _ | ⟨token, parts⟩ := parts
    obtain _ | ⟨operand, parts⟩ := parts
    cases parts
    obtain ⟨rfl, rfl, tokenOut⟩ := laid_names names parser token
    cases guard with
    | leaf labelled guardOut =>
      cases labelled
      cases operand with
      | leaf labelled => cases labelled
      | call known' operandOut =>
        obtain rfl := Except.ok.inj (known'.symm.trans known)
        obtain _ | ⟨joined, chained⟩ := chained
        obtain _ | ⟨joined', chained⟩ := chained
        cases chained
        exact ⟨rfl, rfl, guardOut, joined, tokenOut, joined', operandOut⟩

/-- The tails of the operators lie one behind the other. -/
theorem laid_tails {expr : String} {e : Nat} (parser : g.isLexer = false) (known : g.ruleIndex expr = .ok e)
    (q : Int) (ops : List (Element × Infix)) (names : ∀ o ∈ ops, Names g o.1 o.2.type) (k : Nat)
    {segs : List Segment}
    (parts : Consecutive (net.Laid g r)
      (((ops.map fun o => Operator.binary o.1 o.2.assoc).zipIdx k).map fun (op, i) => op.tail expr (q - i))
      segs lo hi) :
    hi = lo + 6 * ops.length ∧ segs = (List.range ops.length).map (fun i => ⟨lo + 6 * i, lo + 6 * i + 5⟩) ∧
      ∀ i op, ops[i]? = some op →
        Tail net e (q - (k + i : Nat)) (nextOf op.2.assoc (q - (k + i : Nat))) (atomLabel op.2.type) (lo + 6 * i) := by
  induction ops generalizing k lo segs with
  | nil =>
    cases parts
    exact ⟨rfl, rfl, nofun⟩
  | cons op ops ih =>
    obtain _ | ⟨first, rest⟩ := parts
    obtain ⟨rfl, rfl, tail⟩ := laid_tail (names op List.mem_cons_self) parser known first
    obtain ⟨rfl, rfl, tails⟩ := ih (fun o member => names o (List.mem_cons_of_mem _ member)) (k + 1) rest
    refine ⟨?_, ?_, fun i op' found => ?_⟩
    · rw [List.length_cons]
      omega
    · rw [List.length_cons, List.range_succ_eq_map, List.map_cons, List.map_map]
      congr 1
      refine List.map_congr_left fun i _ => ?_
      simp only [Function.comp_apply, Nat.succ_eq_add_one, Segment.mk.injEq]
      omega
    · cases i with
      | zero =>
        obtain rfl := Option.some.inj found
        exact tail
      | succ i =>
        have later := tails i op' found
        rw [show k + 1 + i = k + (i + 1) by omega, show lo + 6 + 6 * i = lo + 6 * (i + 1) by omega] at later
        exact later

/-! ## The bodies of the two rules -/

/-- The body of the start rule. -/
structure StartBody (net : Network) (e n : Nat) : Prop where
  call : net.out n = [⟨net.ruleStart e, .rule e 0 (n + 1)⟩]
  called : net.out (n + 1) = [.epsilon (n + 2)]
  last : net.out (n + 2) = [⟨n + 3, .atom endOfInput⟩]

theorem laid_start {expr : String} {e : Nat} (known : g.ruleIndex expr = .ok e)
    (laid : net.Laid g r (.seq [.rule expr 0, .eof]) seg lo hi) :
    seg = ⟨lo, lo + 3⟩ ∧ hi = lo + 4 ∧ StartBody net e lo := by
  cases laid with
  | leaf labelled => cases labelled
  | seq parts chained =>
    obtain _ | ⟨call, parts⟩ := parts
    obtain _ | ⟨last, parts⟩ := parts
    cases parts
    cases call with
    | leaf labelled => cases labelled
    | call known' callOut =>
      obtain rfl := Except.ok.inj (known'.symm.trans known)
      cases last with
      | leaf labelled lastOut =>
        cases labelled
        obtain _ | ⟨joined, chained⟩ := chained
        cases chained
        exact ⟨rfl, rfl, callOut, joined, lastOut⟩

/-- Where the tail of an operator begins, in the body of the rule of expressions that begins at `n`. Behind the
last tail stands the block of the loop. -/
def tailAt (n i : Nat) : Nat := n + 2 + 6 * i

/-- The body of the rule of expressions: the primary, and the loop around the tails, whose own states follow
the last of them. -/
structure ExprBody (net : Network) (e : Nat) (primary : Int) (ops : List Infix) (n : Nat) : Prop where
  primary : net.out n = [⟨n + 1, atomLabel primary⟩]
  enters : net.out (n + 1) = [.epsilon (tailAt n ops.length + 2)]
  tail : ∀ (i : Nat) (op : Infix), ops[i]? = some op → Tail net e ((ops.length : Int) - i)
    (nextOf op.assoc ((ops.length : Int) - i)) (atomLabel op.type) (tailAt n i)
  ends : ∀ i < ops.length, net.out (tailAt n i + 5) = [.epsilon (tailAt n ops.length + 1)]
  block : net.out (tailAt n ops.length) = (List.range ops.length).map fun i => .epsilon (tailAt n i)
  stops : net.out (tailAt n ops.length + 1) = [.epsilon (tailAt n ops.length + 3)]
  entry : net.out (tailAt n ops.length + 2) =
    [.epsilon (tailAt n ops.length), .epsilon (tailAt n ops.length + 4)]
  returns : net.out (tailAt n ops.length + 3) = [.epsilon (tailAt n ops.length + 2)]

theorem laid_expr {expr : String} {e : Nat} {primary : Element} {type : Int} {ops : List (Element × Infix)}
    (parser : g.isLexer = false) (known : g.ruleIndex expr = .ok e) (named : Names g primary type)
    (names : ∀ o ∈ ops, Names g o.1 o.2.type)
    (laid : net.Laid g r (Operator.body expr [primary] (ops.map fun o => .binary o.1 o.2.assoc)) seg lo hi) :
    seg = ⟨lo, tailAt lo ops.length + 4⟩ ∧ hi = tailAt lo ops.length + 5 ∧
      ExprBody net e type (ops.map (·.2)) lo := by
  rw [Operator.body, Element.star] at laid
  cases laid with
  | leaf labelled => cases labelled
  | seq parts chained =>
    obtain _ | ⟨first, parts⟩ := parts
    obtain _ | ⟨loop, parts⟩ := parts
    cases parts
    cases first with
    | leaf labelled => cases labelled
    | alt several => exact absurd several (Nat.lt_irrefl 1)
    | only first =>
      obtain ⟨rfl, rfl, primaryOut⟩ := laid_names named parser first
      cases loop with
      | leaf labelled => cases labelled
      | repeated tails around =>
        rw [Element.branches, Operator.tails, List.length_map] at tails
        obtain ⟨rfl, rfl, each⟩ := laid_tails parser known _ ops names 0 tails
        cases around with
        | star enters ends stops returns decides =>
          obtain _ | ⟨joined, chained⟩ := chained
          cases chained
          refine ⟨rfl, rfl, primaryOut, ?_, fun i op found => ?_, fun i inside => ?_, ?_, ?_, ?_, ?_⟩
          all_goals rw [List.length_map]
          · exact joined
          · obtain ⟨o, here, rfl⟩ := Option.map_eq_some_iff.1 (List.getElem?_map .. ▸ found)
            have tail := each i o here
            rw [Nat.zero_add] at tail
            exact tail
          · rw [List.length_map] at inside
            exact ends _ (List.mem_map_of_mem (List.mem_range.2 inside))
          · refine enters.trans ?_
            rw [waysIn, List.map_map]
            rfl
          · exact stops
          · exact decides
          · exact returns

section

variable {net' : Network} {e n : Nat}

theorem Tail.of_same {q next : Int} {label : Label} (tail : Tail net e q next label n)
    (same : ∀ m, n ≤ m → m < n + 5 → net'.out m = net.out m) (starts : net'.ruleStart e = net.ruleStart e) :
    Tail net' e q next label n :=
  ⟨(same _ (by omega) (by omega)).trans tail.guard, (same _ (by omega) (by omega)).trans tail.guarded,
    (same _ (by omega) (by omega)).trans tail.token, (same _ (by omega) (by omega)).trans tail.matched,
    starts ▸ (same _ (by omega) (by omega)).trans tail.operand⟩

theorem StartBody.of_same (body : StartBody net e n) (same : ∀ m, n ≤ m → m < n + 4 → net'.out m = net.out m)
    (starts : net'.ruleStart e = net.ruleStart e) : StartBody net' e n :=
  ⟨starts ▸ (same _ (by omega) (by omega)).trans body.call, (same _ (by omega) (by omega)).trans body.called,
    (same _ (by omega) (by omega)).trans body.last⟩

theorem ExprBody.of_same {primary : Int} {ops : List Infix} (body : ExprBody net e primary ops n)
    (same : ∀ m, n ≤ m → m < tailAt n ops.length + 5 → net'.out m = net.out m)
    (starts : net'.ruleStart e = net.ruleStart e) : ExprBody net' e primary ops n := by
  have inside {m : Nat} (low : n ≤ m) (high : m < n + 2 + 6 * ops.length + 5) : net'.out m = net.out m :=
    same m low high
  have tails {i : Nat} (before : i < ops.length) {m : Nat} (low : n + 2 + 6 * i ≤ m)
      (high : m < n + 2 + 6 * i + 6) : net'.out m = net.out m := inside (by omega) (by omega)
  refine ⟨(inside (by omega) (by omega)).trans body.primary, (inside (by omega) (by omega)).trans body.enters,
    fun i op found => ?_, fun i before => ?_, (inside ?_ ?_).trans body.block, (inside ?_ ?_).trans body.stops,
    (inside ?_ ?_).trans body.entry, (inside ?_ ?_).trans body.returns⟩
  · have before := (List.getElem?_eq_some_iff.1 found).1
    exact (body.tail i op found).of_same
      (fun m low high => tails before low (Nat.lt_succ_of_lt high)) starts
  · exact (tails before (by unfold tailAt; omega) (by unfold tailAt; omega)).trans (body.ends i before)
  all_goals
    unfold tailAt
    omega

end

/-- The states of the rule of expressions. -/
theorem expr_cases {n m k : Nat} (low : n ≤ m) (high : m < tailAt n k + 5) :
    m = n ∨ m = n + 1 ∨ (∃ i < k, ∃ j < 6, m = tailAt n i + j) ∨ ∃ j < 5, m = tailAt n k + j := by
  unfold tailAt at *
  rcases Nat.lt_or_ge m (n + 2) with early | late
  · omega
  · rcases Nat.lt_or_ge m (n + 2 + 6 * k) with within | behind
    · exact .inr (.inr (.inl ⟨(m - n - 2) / 6, by omega, (m - n - 2) % 6, Nat.mod_lt _ (by omega), by omega⟩))
    · exact .inr (.inr (.inr ⟨m - (n + 2 + 6 * k), by omega, by omega⟩))

/-! ## Networks of expressions -/

/-- The numbers of the two rules, where their bodies begin, and how many operators there are. -/
structure Sites where
  start : Nat
  expr : Nat
  call : Nat
  operand : Nat
  count : Nat

namespace Sites

/-- Where the tail of an operator begins. -/
def tail (w : Sites) (i : Nat) : Nat := tailAt w.operand i

/-- The start of the block around the tails. -/
def block (w : Sites) : Nat := tailAt w.operand w.count

/-- The entry of the loop, where it is decided whether an operator follows. -/
def entry (w : Sites) : Nat := w.block + 2

/-- The state behind the loop. -/
def exit (w : Sites) : Nat := w.block + 4

end Sites

/-- A state that a parser decides at. -/
def Decides (net : Network) (n d : Nat) : Prop :=
  net.decisions[d]? = some n ∧ (net.state n).decision = some d ∧ (net.state n).kind.isDecision = true

/-- The network of a grammar of expressions. -/
structure Expressive (net : Network) (w : Sites) (primary : Int) (ops : List Infix) : Prop where
  walkable : net.Walkable
  refreshed : net.Refreshed
  parser : net.isLexer = false
  numRules : net.numRules = 2
  apart : w.start ≠ w.expr
  knownStart : w.start < 2
  knownExpr : w.expr < 2
  ruleStart : ∀ r < 2, net.ruleStart r = 2 * r
  plainStart : (net.state (2 * w.start)).kind.isLeftRecursiveStart = false
  recursiveExpr : (net.state (2 * w.expr)).kind.isLeftRecursiveStart = true
  /-- The ends of the rules. -/
  begin : ∀ r < 2, net.isStop (2 * r) = false
  stop : ∀ r < 2, net.isStop (2 * r + 1) = true ∧ (net.state (2 * r + 1)).rule = some r
  /-- The bodies, from the start of the rule to its stop state. -/
  count : w.count = ops.length
  enterStart : net.out (2 * w.start) = [.epsilon w.call]
  startBody : StartBody net w.expr w.call
  leaveStart : net.out (w.call + 3) = [.epsilon (2 * w.start + 1)]
  enterExpr : net.out (2 * w.expr) = [.epsilon w.operand]
  exprBody : ExprBody net w.expr primary ops w.operand
  leaveExpr : net.out w.exit = [.epsilon (2 * w.expr + 1)]
  insideStart : ∀ n, w.call ≤ n → n < w.call + 4 → net.isStop n = false ∧ (net.state n).rule = some w.start
  insideExpr : ∀ n, w.operand ≤ n → n < w.block + 5 → net.isStop n = false ∧ (net.state n).rule = some w.expr
  /-- The ways back behind the calls. Only the call in the start rule is one at precedence 0. -/
  returns : ∀ t, t ∈ net.out (2 * w.expr + 1) ↔ t = ⟨w.call + 1, .epsilon (some w.expr)⟩ ∨
    ∃ i < w.count, t = ⟨w.tail i + 5, .epsilon none⟩
  noReturns : net.out (2 * w.start + 1) = []
  /-- Kinds and decisions. -/
  loop : ∀ n, (net.state n).kind.isPrecedenceLoop = true ↔ n = w.entry
  blockKind : (net.state w.block).kind.isLoopEnd = false
  exitKind : (net.state w.exit).kind.isLoopEnd = true
  entryDecides : ∃ d, Decides net w.entry d
  blockDecides : 1 < w.count → ∃ d, Decides net w.block d

end AdaptiveLL.Operators
