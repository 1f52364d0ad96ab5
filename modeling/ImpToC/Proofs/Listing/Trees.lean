import Mathlib
import ImpToC.Proofs.Listing.Forest
import ImpToC.Proofs.Rendering.Grammar

/-!
A program can be told from its listing, but for the places in it. The listing is that of a
forest of nodes, the nodes say which statement or expression each of them is, and the
children of a node are its parts in order. A part that may be left out can be told by what
stands in its place: a block that is left out has no line, and all other parts have one level
and one kind to themselves.
-/
namespace ImpToC

open Outline

/-- What a listing asks of names and strings. Integers may be any. -/
def Leaf.Listable : Leaf → Prop
  | .name word | .callee word => IsWord word
  | .int _ => True
  | .str text => '"' ∉ text.toList

theorem Leaf.Readable.listable {leaf : Leaf} (readable : leaf.Readable) : leaf.Listable := by
  cases leaf with
  | name word => exact readable.1
  | callee word => exact readable.1
  | int value => trivial
  | str text => exact readable

theorem Leaf.isWord_of_names {names : List String} (plain : ∀ leaf ∈ names.map Leaf.name, leaf.Listable) :
    ∀ name ∈ names, IsWord name := by
  intro name member
  exact plain (.name name) (List.mem_map_of_mem member)

mutual

/-- A tree as nodes: each with its kind, its detail and its parts. -/
def Expr.node : Expr → Node
  | .ident name _ => .mk .ident name []
  | .int value _ => .mk .int (toString value) []
  | .str text _ => .mk .str (text ++ "\"") []
  | .binary op left right _ => .mk .binary (op.symbol ++ ")") [left.node, right.node]
  | .call callee args _ => .mk .call "" (callee.node :: Expr.nodes args)
  | .func params body _ => .mk .lambda (commaSeparated params ++ ")") [body.node .body]

def Expr.nodes : List Expr → List Node
  | [] => []
  | e :: es => e.node :: Expr.nodes es

def Expr.nodesOfOption : Option Expr → List Node
  | none => []
  | some e => [e.node]

def Block.node (role : Kind) : Block → Node
  | .mk body _ => .mk role "" (Stmt.nodes body)

def Block.nodesOfOption (role : Kind) : Option Block → List Node
  | none => []
  | some body => [body.node role]

/-- The node of a statement. Its blocks are nodes of their own, named for the part they play. -/
def Stmt.node : Stmt → Node
  | .declare name value _ => .mk .declare name (Expr.nodesOfOption value)
  | .assign name value _ => .mk .assign name [value.node]
  | .print value _ => .mk .print "" [value.node]
  | .branch condition consequence alternative _ =>
    .mk .branch "" (condition.node :: consequence.node .consequence ::
      Block.nodesOfOption .alternative alternative)
  | .block body => body.node .block
  | .foreign name _ => .mk .foreign name []
  | .ret value _ => .mk .ret "" (Expr.nodesOfOption value)
  | .func name params body _ => .mk .func (name ++ "(" ++ commaSeparated params ++ ")") [body.node .body]
  | .expr value _ => .mk .expr "" [value.node]

def Stmt.nodes : List Stmt → List Node
  | [] => []
  | s :: ss => s.node :: Stmt.nodes ss

end

/-- The kind of line that a statement has. -/
def Stmt.kind : Stmt → Kind
  | .declare _ _ _ => .declare
  | .assign _ _ _ => .assign
  | .print _ _ => .print
  | .branch _ _ _ _ => .branch
  | .block _ => .block
  | .foreign _ _ => .foreign
  | .ret _ _ => .ret
  | .func _ _ _ _ => .func
  | .expr _ _ => .expr

/-- The kind of a statement can be told from its node. -/
theorem Stmt.node_kind (s : Stmt) : s.node.kind = s.kind := by
  cases s with
  | block body =>
    obtain ⟨body, l⟩ := body
    rfl
  | _ => rfl

namespace Outline

mutual

/-- The listing is that of the nodes. -/
theorem ofExpr_eq (depth : Nat) (e : Expr) : ofExpr depth e = e.node.lines depth := by
  cases e with
  | ident name l => rfl
  | int value l => rfl
  | str text l =>
    rw [ofExpr, Expr.node, Node.lines, String.append_assoc]
    rfl
  | binary op left right l =>
    rw [ofExpr, Expr.node, Node.lines, Node.linesOfAll, Node.linesOfAll_singleton, ofExpr_eq (depth + 1) left,
      ofExpr_eq (depth + 1) right, String.append_assoc]
    rfl
  | call callee args l =>
    rw [ofExpr, Expr.node, Node.lines, Node.linesOfAll, ofExpr_eq (depth + 1) callee, ofExprs_eq (depth + 1) args]
    rfl
  | func params body l =>
    rw [ofExpr, Expr.node, Node.lines, Node.linesOfAll_singleton, ofBlock_eq .body "Body" rfl (depth + 1) body,
      String.append_assoc]
    rfl

theorem ofExprs_eq (depth : Nat) (es : List Expr) : ofExprs depth es = Node.linesOfAll depth (Expr.nodes es) := by
  cases es with
  | nil => rfl
  | cons e es => rw [ofExprs, Expr.nodes, Node.linesOfAll, ofExpr_eq depth e, ofExprs_eq depth es]

theorem ofOptional_eq (depth : Nat) (value : Option Expr) :
    ofOptional depth value = Node.linesOfAll depth (Expr.nodesOfOption value) := by
  cases value with
  | none => rfl
  | some e => rw [ofOptional, Expr.nodesOfOption, Node.linesOfAll_singleton, ofExpr_eq depth e]

theorem ofBlock_eq (kind : Kind) (role : String) (opening : role ++ ":" = kind.opening) (depth : Nat) (b : Block) :
    ofBlock role depth b = (b.node kind).lines depth := by
  cases b with
  | mk body l =>
    rw [ofBlock, Block.node, Node.lines, ofStmts_eq (depth + 1) body, opening, String.append_empty]

theorem ofAlternative_eq (depth : Nat) (b : Option Block) :
    ofAlternative depth b = Node.linesOfAll depth (Block.nodesOfOption .alternative b) := by
  cases b with
  | none => rfl
  | some body =>
    rw [ofAlternative, Block.nodesOfOption, Node.linesOfAll_singleton,
      ofBlock_eq .alternative "Else" rfl depth body]

/-- A statement is listed as its node is. -/
theorem ofStmt_eq (depth : Nat) (s : Stmt) : ofStmt depth s = s.node.lines depth := by
  cases s with
  | declare name value l =>
    rw [ofStmt, Stmt.node, Node.lines, ofOptional_eq (depth + 1) value]
    rfl
  | assign name value l =>
    rw [ofStmt, Stmt.node, Node.lines, Node.linesOfAll_singleton, ofExpr_eq (depth + 1) value]
    rfl
  | print value l =>
    rw [ofStmt, Stmt.node, Node.lines, Node.linesOfAll_singleton, ofExpr_eq (depth + 1) value]
    rfl
  | branch condition consequence alternative l =>
    rw [ofStmt, Stmt.node, Node.lines, Node.linesOfAll, Node.linesOfAll, ofExpr_eq (depth + 1) condition,
      ofBlock_eq .consequence "Then" rfl (depth + 1) consequence, ofAlternative_eq (depth + 1) alternative,
      List.append_assoc]
    rfl
  | block body => rw [ofStmt, Stmt.node, ofBlock_eq .block "Block" rfl depth body]
  | foreign name l => rfl
  | ret value l =>
    rw [ofStmt, Stmt.node, Node.lines, ofOptional_eq (depth + 1) value]
    rfl
  | func name params body l =>
    rw [ofStmt, Stmt.node, Node.lines, Node.linesOfAll_singleton, ofBlock_eq .body "Body" rfl (depth + 1) body]
    simp only [String.append_assoc]
    rfl
  | expr value l =>
    rw [ofStmt, Stmt.node, Node.lines, Node.linesOfAll_singleton, ofExpr_eq (depth + 1) value]
    rfl

theorem ofStmts_eq (depth : Nat) (ss : List Stmt) : ofStmts depth ss = Node.linesOfAll depth (Stmt.nodes ss) := by
  cases ss with
  | nil => rfl
  | cons s ss => rw [ofStmts, Stmt.nodes, Node.linesOfAll, ofStmt_eq depth s, ofStmts_eq depth ss]

end

theorem quiet_symbol (op : Operator) : Quiet (op.symbol ++ ")") := by
  cases op <;> simp [Quiet, Operator.symbol]

mutual

/-- Every line can be told from the text, if the names and the strings are listable. -/
theorem ofExpr_legible (depth : Nat) (e : Expr) (plain : ∀ leaf ∈ e.leaves, leaf.Listable) :
    ∀ line ∈ ofExpr depth e, line.Legible := by
  cases e with
  | ident name l =>
    have word : IsWord name := plain (.name name) (List.mem_singleton_self _)
    rw [ofExpr, List.forall_mem_singleton]
    exact Kind.ident.legible (by decide) (quiet_of_isWord word) depth
  | int value l =>
    rw [ofExpr, List.forall_mem_singleton]
    exact Kind.int.legible (by decide) (quiet_int value) depth
  | str text l =>
    have inside : '"' ∉ text.toList := plain (.str text) (List.mem_singleton_self _)
    rw [ofExpr, List.forall_mem_singleton, String.append_assoc]
    exact Kind.legible_str inside depth
  | binary op left right l =>
    obtain ⟨first, second⟩ := List.forall_mem_append.mp plain
    rw [ofExpr, List.forall_mem_cons, List.forall_mem_append, String.append_assoc]
    exact ⟨Kind.binary.legible (by decide) (quiet_symbol op) depth, ofExpr_legible (depth + 1) left first,
      ofExpr_legible (depth + 1) right second⟩
  | call callee args l =>
    obtain ⟨front, others⟩ := List.forall_mem_append.mp plain
    rw [ofExpr, List.forall_mem_cons, List.forall_mem_append]
    exact ⟨Kind.call.legible_bare (by decide) depth,
      ofExpr_legible (depth + 1) callee (List.forall_mem_append.mp front).2,
      ofExprs_legible (depth + 1) args others⟩
  | func params body l =>
    obtain ⟨names, inside⟩ := List.forall_mem_append.mp plain
    rw [ofExpr, List.forall_mem_cons, String.append_assoc]
    exact ⟨Kind.lambda.legible (by decide) (quiet_params (Leaf.isWord_of_names names)) depth,
      ofBlock_legible .body (by decide) "Body" rfl (depth + 1) body inside⟩

theorem ofExprs_legible (depth : Nat) (es : List Expr) (plain : ∀ leaf ∈ Expr.leavesOfAll es, leaf.Listable) :
    ∀ line ∈ ofExprs depth es, line.Legible := by
  cases es with
  | nil => exact List.forall_mem_nil _
  | cons e es =>
    obtain ⟨first, others⟩ := List.forall_mem_append.mp plain
    rw [ofExprs, List.forall_mem_append]
    exact ⟨ofExpr_legible depth e first, ofExprs_legible depth es others⟩

theorem ofOptional_legible (depth : Nat) (value : Option Expr)
    (plain : ∀ leaf ∈ Expr.leavesOfOption value, leaf.Listable) : ∀ line ∈ ofOptional depth value, line.Legible := by
  cases value with
  | none => exact List.forall_mem_nil _
  | some e => exact ofExpr_legible depth e plain

theorem ofBlock_legible (kind : Kind) (other : kind ≠ .str) (role : String) (opening : role ++ ":" = kind.opening)
    (depth : Nat) (b : Block) (plain : ∀ leaf ∈ b.leaves, leaf.Listable) :
    ∀ line ∈ ofBlock role depth b, line.Legible := by
  cases b with
  | mk body l =>
    rw [ofBlock, List.forall_mem_cons, opening]
    exact ⟨Kind.legible_bare other depth, ofStmts_legible (depth + 1) body plain⟩

theorem ofAlternative_legible (depth : Nat) (b : Option Block)
    (plain : ∀ leaf ∈ Block.leavesOfOption b, leaf.Listable) : ∀ line ∈ ofAlternative depth b, line.Legible := by
  cases b with
  | none => exact List.forall_mem_nil _
  | some body => exact ofBlock_legible .alternative (by decide) "Else" rfl depth body plain

/-- The lines of a statement are legible if its names and texts are. -/
theorem ofStmt_legible (depth : Nat) (s : Stmt) (plain : ∀ leaf ∈ s.leaves, leaf.Listable) :
    ∀ line ∈ ofStmt depth s, line.Legible := by
  cases s with
  | declare name value l =>
    obtain ⟨word, inside⟩ := List.forall_mem_cons.mp plain
    rw [ofStmt, List.forall_mem_cons]
    exact ⟨Kind.declare.legible (by decide) (quiet_of_isWord word) depth,
      ofOptional_legible (depth + 1) value inside⟩
  | assign name value l =>
    obtain ⟨word, inside⟩ := List.forall_mem_cons.mp plain
    rw [ofStmt, List.forall_mem_cons]
    exact ⟨Kind.assign.legible (by decide) (quiet_of_isWord word) depth, ofExpr_legible (depth + 1) value inside⟩
  | print value l =>
    rw [ofStmt, List.forall_mem_cons]
    exact ⟨Kind.print.legible_bare (by decide) depth, ofExpr_legible (depth + 1) value plain⟩
  | branch condition consequence alternative l =>
    obtain ⟨front, last⟩ := List.forall_mem_append.mp plain
    obtain ⟨test, taken⟩ := List.forall_mem_append.mp front
    rw [ofStmt, List.forall_mem_cons, List.forall_mem_append, List.forall_mem_append]
    exact ⟨Kind.branch.legible_bare (by decide) depth,
      ⟨ofExpr_legible (depth + 1) condition test,
        ofBlock_legible .consequence (by decide) "Then" rfl (depth + 1) consequence taken⟩,
      ofAlternative_legible (depth + 1) alternative last⟩
  | block body => exact ofBlock_legible .block (by decide) "Block" rfl depth body plain
  | foreign name l =>
    have word : IsWord name := plain (.name name) (List.mem_singleton_self _)
    rw [ofStmt, List.forall_mem_singleton]
    exact Kind.foreign.legible (by decide) (quiet_of_isWord word) depth
  | ret value l =>
    rw [ofStmt, List.forall_mem_cons]
    exact ⟨Kind.ret.legible_bare (by decide) depth, ofOptional_legible (depth + 1) value plain⟩
  | func name params body l =>
    obtain ⟨word, others⟩ := List.forall_mem_cons.mp plain
    obtain ⟨names, inside⟩ := List.forall_mem_append.mp others
    have signature : Quiet (name ++ ("(" ++ (commaSeparated params ++ ")"))) :=
      (quiet_of_isWord word).append (Quiet.append (by simp [Quiet]) (quiet_params (Leaf.isWord_of_names names)))
    rw [ofStmt, List.forall_mem_cons]
    simp only [String.append_assoc]
    exact ⟨Kind.func.legible (by decide) signature depth,
      ofBlock_legible .body (by decide) "Body" rfl (depth + 1) body inside⟩
  | expr value l =>
    rw [ofStmt, List.forall_mem_cons]
    exact ⟨Kind.expr.legible_bare (by decide) depth, ofExpr_legible (depth + 1) value plain⟩

theorem ofStmts_legible (depth : Nat) (ss : List Stmt) (plain : ∀ leaf ∈ Stmt.leavesOfAll ss, leaf.Listable) :
    ∀ line ∈ ofStmts depth ss, line.Legible := by
  cases ss with
  | nil => exact List.forall_mem_nil _
  | cons s ss =>
    obtain ⟨first, others⟩ := List.forall_mem_append.mp plain
    rw [ofStmts, List.forall_mem_append]
    exact ⟨ofStmt_legible depth s first, ofStmts_legible depth ss others⟩

end

/-- Operators are told apart by their symbols. -/
theorem symbol_inj {op op' : Operator} (same : op.symbol ++ ")" = op'.symbol ++ ")") : op = op' := by
  have symbols := (String.append_left_inj ")").mp same
  revert symbols
  cases op <;> cases op' <;> decide

end Outline

mutual

/-- A node says all of an expression but its places. -/
theorem Expr.unplaced_of_node (e e' : Expr) (plain : ∀ leaf ∈ e.leaves, leaf.Listable)
    (plain' : ∀ leaf ∈ e'.leaves, leaf.Listable) (same : e.node = e'.node) : e.unplaced = e'.unplaced := by
  cases e with
  | ident name l =>
    cases e' with
    | ident name' l' =>
      cases same
      rfl
    | _ => cases same
  | int value l =>
    cases e' with
    | int value' l' =>
      obtain ⟨_, digits, _⟩ := Node.mk.inj same
      rw [Int.toString_eq_repr, Int.toString_eq_repr, Int.repr_inj] at digits
      rw [Expr.unplaced, Expr.unplaced, digits]
    | _ => cases same
  | str text l =>
    cases e' with
    | str text' l' =>
      obtain ⟨_, quoted, _⟩ := Node.mk.inj same
      rw [Expr.unplaced, Expr.unplaced, (String.append_left_inj "\"").mp quoted]
    | _ => cases same
  | binary op left right l =>
    cases e' with
    | binary op' left' right' l' =>
      obtain ⟨first, second⟩ := List.forall_mem_append.mp plain
      obtain ⟨first', second'⟩ := List.forall_mem_append.mp plain'
      obtain ⟨_, symbols, parts⟩ := Node.mk.inj same
      obtain ⟨lefts, others⟩ := List.cons.inj parts
      rw [Expr.unplaced, Expr.unplaced, symbol_inj symbols, left.unplaced_of_node left' first first' lefts,
        right.unplaced_of_node right' second second' (List.cons.inj others).1]
    | _ => cases same
  | call callee args l =>
    cases e' with
    | call callee' args' l' =>
      obtain ⟨front, inside⟩ := List.forall_mem_append.mp plain
      obtain ⟨front', inside'⟩ := List.forall_mem_append.mp plain'
      obtain ⟨_, _, parts⟩ := Node.mk.inj same
      obtain ⟨callees, others⟩ := List.cons.inj parts
      rw [Expr.unplaced, Expr.unplaced, callee.unplaced_of_node callee' (List.forall_mem_append.mp front).2
        (List.forall_mem_append.mp front').2 callees, Expr.unplacedAll_of_nodes args args' inside inside' others]
    | _ => cases same
  | func params body l =>
    cases e' with
    | func params' body' l' =>
      obtain ⟨names, inside⟩ := List.forall_mem_append.mp plain
      obtain ⟨names', inside'⟩ := List.forall_mem_append.mp plain'
      obtain ⟨_, lists, parts⟩ := Node.mk.inj same
      rw [Expr.unplaced, Expr.unplaced, params_inj (Leaf.isWord_of_names names) (Leaf.isWord_of_names names') lists,
        body.unplaced_of_node .body body' inside inside' (List.cons.inj parts).1]
    | _ => cases same
termination_by structural e

theorem Expr.unplacedAll_of_nodes (es es' : List Expr) (plain : ∀ leaf ∈ Expr.leavesOfAll es, leaf.Listable)
    (plain' : ∀ leaf ∈ Expr.leavesOfAll es', leaf.Listable) (same : Expr.nodes es = Expr.nodes es') :
    Expr.unplacedAll es = Expr.unplacedAll es' := by
  cases es with
  | nil =>
    cases es' with
    | nil => rfl
    | cons e' es' => cases same
  | cons e es =>
    cases es' with
    | nil => cases same
    | cons e' es' =>
      obtain ⟨first, others⟩ := List.forall_mem_append.mp plain
      obtain ⟨first', others'⟩ := List.forall_mem_append.mp plain'
      obtain ⟨heads, tails⟩ := List.cons.inj same
      rw [Expr.unplacedAll, Expr.unplacedAll, e.unplaced_of_node e' first first' heads,
        Expr.unplacedAll_of_nodes es es' others others' tails]
termination_by structural es

theorem Expr.unplacedOption_of_nodes (value value' : Option Expr)
    (plain : ∀ leaf ∈ Expr.leavesOfOption value, leaf.Listable)
    (plain' : ∀ leaf ∈ Expr.leavesOfOption value', leaf.Listable)
    (same : Expr.nodesOfOption value = Expr.nodesOfOption value') :
    Expr.unplacedOption value = Expr.unplacedOption value' := by
  cases value with
  | none =>
    cases value' with
    | none => rfl
    | some e' => cases same
  | some e =>
    cases value' with
    | none => cases same
    | some e' =>
      rw [Expr.unplacedOption, Expr.unplacedOption, e.unplaced_of_node e' plain plain' (List.cons.inj same).1]
termination_by structural value

theorem Block.unplaced_of_node (role : Kind) (b b' : Block) (plain : ∀ leaf ∈ b.leaves, leaf.Listable)
    (plain' : ∀ leaf ∈ b'.leaves, leaf.Listable) (same : b.node role = b'.node role) :
    b.unplaced = b'.unplaced := by
  obtain ⟨body, l⟩ := b
  obtain ⟨body', l'⟩ := b'
  obtain ⟨_, _, parts⟩ := Node.mk.inj same
  rw [Block.unplaced, Block.unplaced, Stmt.unplacedAll_of_nodes body body' plain plain' parts]
termination_by structural b

theorem Block.unplacedOption_of_nodes (role : Kind) (b b' : Option Block)
    (plain : ∀ leaf ∈ Block.leavesOfOption b, leaf.Listable)
    (plain' : ∀ leaf ∈ Block.leavesOfOption b', leaf.Listable)
    (same : Block.nodesOfOption role b = Block.nodesOfOption role b') :
    Block.unplacedOption b = Block.unplacedOption b' := by
  cases b with
  | none =>
    cases b' with
    | none => rfl
    | some body' => cases same
  | some body =>
    cases b' with
    | none => cases same
    | some body' =>
      rw [Block.unplacedOption, Block.unplacedOption,
        body.unplaced_of_node role body' plain plain' (List.cons.inj same).1]
termination_by structural b

/-- Statements with one node differ in places only. -/
theorem Stmt.unplaced_of_node (s s' : Stmt) (plain : ∀ leaf ∈ s.leaves, leaf.Listable)
    (plain' : ∀ leaf ∈ s'.leaves, leaf.Listable) (same : s.node = s'.node) : s.unplaced = s'.unplaced := by
  have kinds : s.kind = s'.kind := by rw [← s.node_kind, ← s'.node_kind, same]
  cases s with
  | declare name value l =>
    cases s' with
    | declare name' value' l' =>
      obtain ⟨_, names, parts⟩ := Node.mk.inj same
      rw [Stmt.unplaced, Stmt.unplaced, names, Expr.unplacedOption_of_nodes value value'
        (List.forall_mem_cons.mp plain).2 (List.forall_mem_cons.mp plain').2 parts]
    | _ => cases kinds
  | assign name value l =>
    cases s' with
    | assign name' value' l' =>
      obtain ⟨_, names, parts⟩ := Node.mk.inj same
      rw [Stmt.unplaced, Stmt.unplaced, names, value.unplaced_of_node value' (List.forall_mem_cons.mp plain).2
        (List.forall_mem_cons.mp plain').2 (List.cons.inj parts).1]
    | _ => cases kinds
  | print value l =>
    cases s' with
    | print value' l' =>
      obtain ⟨_, _, parts⟩ := Node.mk.inj same
      rw [Stmt.unplaced, Stmt.unplaced, value.unplaced_of_node value' plain plain' (List.cons.inj parts).1]
    | _ => cases kinds
  | branch condition consequence alternative l =>
    cases s' with
    | branch condition' consequence' alternative' l' =>
      obtain ⟨front, last⟩ := List.forall_mem_append.mp plain
      obtain ⟨front', last'⟩ := List.forall_mem_append.mp plain'
      obtain ⟨test, taken⟩ := List.forall_mem_append.mp front
      obtain ⟨test', taken'⟩ := List.forall_mem_append.mp front'
      obtain ⟨_, _, parts⟩ := Node.mk.inj same
      obtain ⟨conditions, blocks⟩ := List.cons.inj parts
      obtain ⟨consequences, alternatives⟩ := List.cons.inj blocks
      rw [Stmt.unplaced, Stmt.unplaced, condition.unplaced_of_node condition' test test' conditions,
        consequence.unplaced_of_node .consequence consequence' taken taken' consequences,
        Block.unplacedOption_of_nodes .alternative alternative alternative' last last' alternatives]
    | _ => cases kinds
  | block body =>
    cases s' with
    | block body' => rw [Stmt.unplaced, Stmt.unplaced, body.unplaced_of_node .block body' plain plain' same]
    | _ => cases kinds
  | foreign name l =>
    cases s' with
    | foreign name' l' =>
      obtain ⟨_, names, _⟩ := Node.mk.inj same
      rw [Stmt.unplaced, Stmt.unplaced, names]
    | _ => cases kinds
  | ret value l =>
    cases s' with
    | ret value' l' =>
      obtain ⟨_, _, parts⟩ := Node.mk.inj same
      rw [Stmt.unplaced, Stmt.unplaced, Expr.unplacedOption_of_nodes value value' plain plain' parts]
    | _ => cases kinds
  | func name params body l =>
    cases s' with
    | func name' params' body' l' =>
      obtain ⟨word, others⟩ := List.forall_mem_cons.mp plain
      obtain ⟨word', others'⟩ := List.forall_mem_cons.mp plain'
      obtain ⟨names, inside⟩ := List.forall_mem_append.mp others
      obtain ⟨names', inside'⟩ := List.forall_mem_append.mp others'
      obtain ⟨_, signatures, parts⟩ := Node.mk.inj same
      obtain ⟨called, lists⟩ := signature_inj word word' (Leaf.isWord_of_names names)
        (Leaf.isWord_of_names names') signatures
      rw [Stmt.unplaced, Stmt.unplaced, called, lists,
        body.unplaced_of_node .body body' inside inside' (List.cons.inj parts).1]
    | _ => cases kinds
  | expr value l =>
    cases s' with
    | expr value' l' =>
      obtain ⟨_, _, parts⟩ := Node.mk.inj same
      rw [Stmt.unplaced, Stmt.unplaced, value.unplaced_of_node value' plain plain' (List.cons.inj parts).1]
    | _ => cases kinds
termination_by structural s

theorem Stmt.unplacedAll_of_nodes (ss ss' : List Stmt) (plain : ∀ leaf ∈ Stmt.leavesOfAll ss, leaf.Listable)
    (plain' : ∀ leaf ∈ Stmt.leavesOfAll ss', leaf.Listable) (same : Stmt.nodes ss = Stmt.nodes ss') :
    Stmt.unplacedAll ss = Stmt.unplacedAll ss' := by
  cases ss with
  | nil =>
    cases ss' with
    | nil => rfl
    | cons s' ss' => cases same
  | cons s ss =>
    cases ss' with
    | nil => cases same
    | cons s' ss' =>
      obtain ⟨first, others⟩ := List.forall_mem_append.mp plain
      obtain ⟨first', others'⟩ := List.forall_mem_append.mp plain'
      obtain ⟨heads, tails⟩ := List.cons.inj same
      rw [Stmt.unplacedAll, Stmt.unplacedAll, s.unplaced_of_node s' first first' heads,
        Stmt.unplacedAll_of_nodes ss ss' others others' tails]
termination_by structural ss

end

namespace Program

/-- Equal listings have equal lines, these equal nodes, and these equal statements. -/
theorem unplaced_of_outline {p q : Program} (plain : ∀ leaf ∈ p.leaves, leaf.Listable)
    (plain' : ∀ leaf ∈ q.leaves, leaf.Listable) (same : p.outline = q.outline) : p.unplaced = q.unplaced := by
  have texts := (String.append_right_inj "Program:\n").mp same
  have lines := render_inj (ofStmts_legible 1 p.statements plain) (ofStmts_legible 1 q.statements plain') texts
  rw [ofStmts_eq, ofStmts_eq] at lines
  have nodes := Node.linesOfAll_inj lines
  exact congrArg Program.mk (Stmt.unplacedAll_of_nodes p.statements q.statements plain plain' nodes)

/-- Two programs with the same listing are the same but for the places in them, if their names
are words and their strings hold no quotes. So it is with any two programs that were read, also
where not all of the text could be read. -/
theorem outline_determines :
    (∀ p q : Program, (∀ leaf ∈ p.leaves, leaf.Listable) → (∀ leaf ∈ q.leaves, leaf.Listable) →
      p.outline = q.outline → p.unplaced = q.unplaced) ∧
    ∀ source source' : String, (Program.read source).1.outline = (Program.read source').1.outline →
      (Program.read source).1.unplaced = (Program.read source').1.unplaced := by
  constructor
  · intro p q plain plain' same
    exact unplaced_of_outline plain plain' same
  · intro source source' same
    exact unplaced_of_outline (fun leaf member => (read_readable source leaf member).listable)
      (fun leaf member => (read_readable source' leaf member).listable) same

/-- Strings that go on with what looks like a line of the listing. -/
theorem outline_determines_sample :
    ∃ p q : Program, ∃ source source' : String,
      p = ⟨[.assign "x" (.str "\n  Print:" ⟨1, 3⟩) ⟨1, 1⟩]⟩ ∧ (∀ leaf ∈ p.leaves, leaf.Listable) ∧
      q = ⟨[.assign "x" (.str "\n  Print:" ⟨2, 5⟩) ⟨2, 1⟩]⟩ ∧ (∀ leaf ∈ q.leaves, leaf.Listable) ∧
      p.outline = "Program:\n  Assign: x\n    String: \"\n  Print:\"\n" ∧ p.outline = q.outline ∧
      p.unplaced = q.unplaced ∧
      source = "x=\"\n  Print:\"" ∧ source' = "\nx = \"\n  Print:\"; )" ∧
      (Program.read source).1.outline = (Program.read source').1.outline ∧
      (Program.read source).1.unplaced = (Program.read source').1.unplaced := by
  have plain (l l' : Location) :
      ∀ leaf ∈ Program.leaves ⟨[.assign "x" (.str "\n  Print:" l) l']⟩, leaf.Listable := by
    have word : IsWord "x" := by decide
    have inside : '"' ∉ "\n  Print:".toList := by decide
    intro leaf member
    rcases List.mem_cons.mp member with rfl | later
    · exact word
    · obtain rfl := List.mem_singleton.mp later
      exact inside
  have read : (Program.read "x=\"\n  Print:\"").1.outline =
      (Program.read "\nx = \"\n  Print:\"; )").1.outline := by decide +kernel
  exact ⟨_, _, _, _, rfl, plain _ _, rfl, plain _ _, by decide +kernel, by decide +kernel,
    outline_determines.1 _ _ (plain _ _) (plain _ _) (by decide +kernel), rfl, rfl, read,
    outline_determines.2 _ _ read⟩

end Program

end ImpToC
