import Fool.Proofs.Parse.Accept
import Fool.Proofs.Parse.Decls
import Fool.Proofs.Token.Cover

/-!
# The places of a program are in the order of its text

Something can be wrong with a reference or with something that is declared. `Program.places` lists the places of both, as
they are written: what is declared before its members and its inside. In a program that was read from a text they are the
places of some of the tokens (`shows_whole`), and the places of tokens rise (`Scans.rises`). So they rise as well
(`rises_of_parse`).
-/

namespace Fool

/-- The first place is in front of the second one, and on no later line. -/
def Location.Ahead (l l' : Location) : Prop := l.offset < l'.offset ∧ l.line ≤ l'.line

/-! ## The places of tokens -/

namespace Lexer

open Position
open Lookahead hiding behind

variable {front rest : List Char} {answers : List (Except ParseError Token)}

theorem ahead_behind (front more : List Char) {word : List Char} (h : word ≠ [])
    (hbytes : bytes (front ++ word ++ more) + 1 < UInt32.size) :
    (behind front).location.Ahead (behind (front ++ word ++ more)).location := by
  have hpos := bytes_pos h
  have hfront : bytes front + 1 < UInt32.size := by
    simp only [bytes_append] at hbytes
    omega
  obtain ⟨hline, -, hoffset⟩ := location_behind hfront
  obtain ⟨hline', -, hoffset'⟩ := location_behind hbytes
  constructor
  · rw [UInt32.lt_iff_toNat_lt, hoffset, hoffset', bytes_append, bytes_append]
    omega
  · rw [UInt32.le_iff_toNat_le, hline, hline', lineOf, lineOf, List.count_append, List.count_append]
    omega

/-- **The places of the answers rise,** as far as 32 bits can count them. -/
theorem Scans.rises (h : Scans front rest answers) (hbytes : bytes (front ++ rest) + 1 < UInt32.size) :
    (answers.map place).Pairwise Location.Ahead := by
  induction h with
  | stop => exact List.pairwise_singleton _ _
  | skip _ _ ih => exact ih (by rwa [List.append_assoc])
  | token hcut hrest ih | fault hcut hrest ih =>
    rw [← List.append_assoc] at hbytes
    refine List.pairwise_cons.2 ⟨fun l hl => ?_, ih hbytes⟩
    obtain ⟨answer, ha, rfl⟩ := List.mem_map.1 hl
    obtain ⟨more, rest', rfl, hmore⟩ := hrest.place_behind ha
    rw [hmore]
    rw [← List.append_assoc, bytes_append _ rest'] at hbytes
    exact ahead_behind _ _ hcut.ne_nil (by omega)

end Lexer

/-! ## The places of a program -/

/-- The expression refers to something that is declared. -/
def Expr.refers : Expr → Bool
  | name _ | call _ _ | methodCall _ _ _ | new _ _ => true
  | _ => false

namespace Arena

variable (a : Arena)

/-- The place of an expression, if it is a reference. -/
def refPlace (e : ExprRef) : List (Option Location) := if (a.expr? e).any Expr.refers then [a.location? e] else []

/-- The places of the references below an expression. -/
def refPlaces (e : ExprRef) : List (Option Location) := (a.walk e).flatMap a.refPlace

/-- The places of a function, from those of its local declarations. -/
def functionPlaces (inner : DeclRef → List (Option Location)) (f : Function) : List (Option Location) :=
  f.location :: (f.params.map (·.location) ++ (f.locals.flatMap inner ++ a.refPlaces f.body))

/-- The places of a declaration, whose local declarations may be nested as deep as the number says. -/
def places : Nat → DeclRef → List (Option Location)
  | 0, _ => []
  | n + 1, d =>
    match a.decl? d with
    | none => []
    | some (.varDecl v) => v.location :: a.refPlaces v.init
    | some (.funDecl f) => a.functionPlaces (places n) f
    | some (.classDecl c) => c.location :: (c.fields.map (·.location) ++ c.methods.flatMap (a.functionPlaces (places n)))

end Arena

/-- The places at which binding a program can find something wrong. -/
def Program.places (p : Program) : List (Option Location) :=
  p.declarations.flatMap (p.arena.places (p.arena.decls.size + 1)) ++ p.arena.refPlaces p.body

/-- The places are known, and each is in front of those behind it. -/
def Rises (places : List (Option Location)) : Prop :=
  ∃ ls : List Location, places = ls.map some ∧ ls.Pairwise Location.Ahead

theorem Rises.sublist {places places' : List (Option Location)} (h : Rises places') (hs : places.Sublist places') :
    Rises places := by
  obtain ⟨ls, rfl, hls⟩ := h
  obtain ⟨ls', hsub, rfl⟩ := List.sublist_map_iff.1 hs
  exact ⟨ls', rfl, hls.sublist hsub⟩

/-! ## Trees show their places -/

namespace Syntax

/-- The places of tokens. -/
def tokenPlaces (ts : List Token) : List (Option Location) := ts.map fun t => some t.location

/-- The places of what tokens stand for are those of some of them, in their order. -/
def Shows {α β : Type} (stands : α → β → Prop) (places : β → List (Option Location)) (lang : Lang α) : Prop :=
  ∀ ⦃ts : List Token⦄ ⦃x : α⦄ ⦃y : β⦄, lang ts x → stands x y → (places y).Sublist (tokenPlaces ts)

section Lists

variable {α β : Type} {stands : α → β → Prop} {places : β → List (Option Location)} {item : Lang α}

@[simp] theorem tokenPlaces_append (ts us : List Token) : tokenPlaces (ts ++ us) = tokenPlaces ts ++ tokenPlaces us :=
  List.map_append

@[simp] theorem tokenPlaces_cons (t : Token) (ts : List Token) :
    tokenPlaces (t :: ts) = some t.location :: tokenPlaces ts := rfl

theorem Shows.items (h : Shows stands places item) :
    Shows (List.Forall₂ stands) (fun ys => ys.flatMap places) (Items item) := by
  intro ts xs ys hts hxs
  induction hts generalizing ys with
  | one hx =>
    obtain ⟨y, _, hy, ⟨⟩, rfl⟩ := List.forall₂_cons_left_iff.1 hxs
    simpa using h hx hy
  | cons hx _ _ ih =>
    obtain ⟨y, ys, hy, hys, rfl⟩ := List.forall₂_cons_left_iff.1 hxs
    simp only [List.flatMap_cons, tokenPlaces_append, tokenPlaces_cons]
    exact (h hx hy).append ((ih hys).cons _)

theorem Shows.listed (h : Shows stands places item) :
    Shows (List.Forall₂ stands) (fun ys => ys.flatMap places) (Listed item) := by
  intro ts xs ys hts hxs
  cases hts with
  | none => cases hxs; exact List.Sublist.refl _
  | some hitems => exact h.items hitems hxs

theorem Shows.many (h : Shows stands places item) :
    Shows (List.Forall₂ stands) (fun ys => ys.flatMap places) (Many item) := by
  intro ts xs ys hts hxs
  induction hts generalizing ys with
  | nil => cases hxs; exact List.Sublist.refl _
  | cons hx _ ih =>
    obtain ⟨y, ys, hy, hys, rfl⟩ := List.forall₂_cons_left_iff.1 hxs
    simp only [List.flatMap_cons, tokenPlaces_append]
    exact (h hx hy).append (ih hys)

end Lists

variable {a : Arena} {names : Names}

/-! ### Expressions -/

/-- The places below an expression: its own, if it refers to something, and those below its parts. -/
theorem refPlaces_eq (hpost : a.Postordered) {e : ExprRef} {x : Expr} {place : Option Location}
    (hx : a.nodes[e.index]? = some ⟨x, place⟩) :
    a.refPlaces e = (if x.refers then [place] else []) ++ x.parts.flatMap a.refPlaces := by
  have hexpr : a.expr? e = some x := by rw [Arena.expr?, hx]; rfl
  have hplace : a.location? e = place := by rw [Arena.location?, hx]; rfl
  rw [Arena.refPlaces, hpost.walk_eq hexpr, List.flatMap_cons, List.flatMap_assoc, Arena.refPlace, hexpr, hplace]
  rfl

/-- The places below an expression, if those below its parts are shown. -/
theorem sublist_node (hpost : a.Postordered) {form : Form} {k : Token} {ts : List Token} {parts : List Tree}
    {e : ExprRef} (he : (Tree.node form k.location parts).Stands a names e)
    (hparts : ∀ es, List.Forall₂ (Tree.Stands a names) parts es → (es.flatMap a.refPlaces).Sublist (tokenPlaces ts)) :
    (a.refPlaces e).Sublist (tokenPlaces (k :: ts)) := by
  obtain ⟨x, hx, -, hp⟩ := he
  rw [refPlaces_eq hpost hx]
  have hbelow := hparts _ (Tree.standAll_iff.1 hp)
  split
  · exact hbelow.cons_cons _
  · exact hbelow.cons _

theorem sublist_leaf (hpost : a.Postordered) {form : Form} {k : Token} {ts : List Token} {e : ExprRef}
    (he : (Tree.node form k.location []).Stands a names e) : (a.refPlaces e).Sublist (tokenPlaces (k :: ts)) :=
  sublist_node hpost he fun es hes => by cases hes; exact List.nil_sublist _

/-- The places of the operands stand on both sides of an operator, which is none itself. -/
theorem refPlaces_binary (hpost : a.Postordered) {op : Operator} {place : Location} {l r : Tree} {e : ExprRef}
    (he : (Tree.node (.binary op) place [l, r]).Stands a names e) : ∃ left right, l.Stands a names left ∧
      r.Stands a names right ∧ a.refPlaces e = a.refPlaces left ++ a.refPlaces right := by
  obtain ⟨x, hx, hfit, hp⟩ := he
  cases x with
  | binary op' left right =>
    obtain ⟨hl, hr, -⟩ := hp
    exact ⟨left, right, hl, hr, by rw [refPlaces_eq hpost hx]; simp [Expr.refers, Expr.parts]⟩
  | _ => exact hfit.elim

theorem Shows.chain (hpost : a.Postordered) {l : Level} {operand : Lang Tree}
    (h : Shows (Tree.Stands a names) a.refPlaces operand) : Shows (Tree.Stands a names) a.refPlaces (Chain l operand) := by
  intro ts t e hts he
  induction hts generalizing e with
  | operand ht => exact h ht he
  | binary _ _ _ hright ih =>
    obtain ⟨left, right, hl, hr, heq⟩ := refPlaces_binary hpost he
    rw [heq, tokenPlaces_append, tokenPlaces_cons]
    exact (ih hl).append ((h hright hr).cons _)

theorem Shows.arguments {expr : Lang Tree} (h : Shows (Tree.Stands a names) a.refPlaces expr) :
    Shows (List.Forall₂ (Tree.Stands a names)) (fun es => es.flatMap a.refPlaces) (Arguments expr) := by
  intro ts args es hts hargs
  cases hts with
  | mk _ hlist _ =>
    rw [tokenPlaces_cons, tokenPlaces_append]
    exact (List.sublist_append_of_sublist_left (h.listed hlist hargs)).cons _

theorem Shows.primary (hpost : a.Postordered) {expr : Lang Tree} (h : Shows (Tree.Stands a names) a.refPlaces expr) :
    Shows (Tree.Stands a names) a.refPlaces (Primary expr) := by
  intro ts t e hts he
  cases hts with
  | number _ | negative _ _ | true _ | false _ | null _ | name _ => exact sublist_leaf hpost he
  | parenthesized _ hexpr _ =>
    rw [tokenPlaces_cons, tokenPlaces_append]
    exact (List.sublist_append_of_sublist_left (h hexpr he)).cons _
  | ifElse _ hc _ _ ht _ _ _ hf _ =>
    refine sublist_node hpost he fun es hes => ?_
    obtain ⟨_, _, hec, hes', rfl⟩ := List.forall₂_cons_left_iff.1 hes
    obtain ⟨_, _, het, hes'', rfl⟩ := List.forall₂_cons_left_iff.1 hes'
    obtain ⟨_, _, hef, ⟨⟩, rfl⟩ := List.forall₂_cons_left_iff.1 hes''
    simp only [List.flatMap_cons, List.flatMap_nil, List.append_nil, tokenPlaces_append, tokenPlaces_cons]
    refine (h hc hec).append (.cons _ (.cons _ ?_))
    refine (h ht het).append (.cons _ (.cons _ (.cons _ ?_)))
    exact List.sublist_append_of_sublist_left (h hf hef)
  | print _ _ hexpr _ =>
    refine sublist_node hpost he fun es hes => ?_
    obtain ⟨e, _, hee, ⟨⟩, rfl⟩ := List.forall₂_cons_left_iff.1 hes
    simpa using (List.sublist_append_of_sublist_left (h hexpr hee)).cons _
  | new _ _ hargs => exact (sublist_node hpost he fun es hes => h.arguments hargs hes).cons _
  | call _ hargs => exact sublist_node hpost he fun es hes => h.arguments hargs hes
  | methodCall _ _ _ hargs => exact sublist_node hpost he fun es hes => ((h.arguments hargs hes).cons _).cons _

theorem Shows.unaryOver (hpost : a.Postordered) {expr operand : Lang Tree}
    (h : Shows (Tree.Stands a names) a.refPlaces expr) (h' : Shows (Tree.Stands a names) a.refPlaces operand) :
    Shows (Tree.Stands a names) a.refPlaces (UnaryOver expr operand) := by
  intro ts t e hts he
  cases hts with
  | primary hp => exact h.primary hpost hp he
  | not _ ho =>
    refine sublist_node hpost he fun es hes => ?_
    obtain ⟨e, _, hee, ⟨⟩, rfl⟩ := List.forall₂_cons_left_iff.1 hes
    simpa using h' ho hee

theorem Shows.operators (hpost : a.Postordered) {unary : Lang Tree} (h : Shows (Tree.Stands a names) a.refPlaces unary) :
    Shows (Tree.Stands a names) a.refPlaces (Operators unary) :=
  (((h.chain hpost).chain hpost).chain hpost).chain hpost

theorem shows_unary (hpost : a.Postordered) (n : Nat) : Shows (Tree.Stands a names) a.refPlaces (Unary n) := by
  induction n with
  | zero => exact Shows.unaryOver hpost (fun _ _ _ => False.elim) (fun _ _ _ => False.elim)
  | succ n ih => exact Shows.unaryOver hpost (ih.operators hpost) ih

/-- **Expressions show the places of their references.** -/
theorem shows_expression (hpost : a.Postordered) (n : Nat) : Shows (Tree.Stands a names) a.refPlaces (Expression n) := by
  cases n with
  | zero => exact fun _ _ _ => False.elim
  | succ n => exact (shows_unary hpost n).operators hpost

/-! ### Declarations -/

theorem shows_member (type : Lang TypeTree) : Shows (Member.Is names) (fun x => [x.location]) (MemberOf type) := by
  intro ts m x hts hx
  cases hts with
  | mk _ _ _ =>
    obtain ⟨-, -, hplace⟩ := hx
    simp only [hplace, tokenPlaces_cons]
    exact (List.nil_sublist _).cons_cons _

theorem shows_members (type : Lang TypeTree) :
    Shows (List.Forall₂ (Member.Is names)) (fun xs => xs.map (·.location)) (Listed (MemberOf type)) := by
  intro ts ms xs hts hxs
  simp only [List.map_eq_flatMap]
  exact (shows_member type).listed hts hxs

theorem Shows.letBlock {decl : Lang DeclTree} {places : DeclRef → List (Option Location)}
    (h : Shows (DeclTree.Stands a names) places decl) :
    Shows (List.Forall₂ (DeclTree.Stands a names)) (fun ds => ds.flatMap places) (LetBlock decl) := by
  intro ts trees ds hts hds
  cases hts with
  | none => cases hds; exact List.Sublist.refl _
  | some _ hd hmany _ =>
    obtain ⟨d, ds, hsd, hsds, rfl⟩ := List.forall₂_cons_left_iff.1 hds
    simp only [List.flatMap_cons, tokenPlaces_cons, tokenPlaces_append]
    exact (List.sublist_append_of_sublist_left ((h hd hsd).append (h.many hmany hsds))).cons _

theorem Shows.function (hpost : a.Postordered) {n : Nat} {locals : Lang (List DeclTree)}
    {places : DeclRef → List (Option Location)}
    (h : Shows (List.Forall₂ (DeclTree.Stands a names)) (fun ds => ds.flatMap places) locals) :
    Shows (FunctionTree.Is a names) (a.functionPlaces places) (FunctionDecl n locals) := by
  intro ts t f hts hf
  cases hts with
  | mk _ _ _ _ _ hparams _ hlocals hbody _ =>
    obtain ⟨-, -, hps, hds, he, hplace⟩ := hf
    simp only [Arena.functionPlaces, hplace, tokenPlaces_cons, tokenPlaces_append]
    refine .cons_cons _ (.cons _ (.cons _ (List.sublist_append_of_sublist_right (.cons _ ?_))))
    refine (shows_members _ hparams hps).append (.cons _ ?_)
    exact (h hlocals (DeclTree.standAll_iff.1 hds)).append
      (List.sublist_append_of_sublist_left (shows_expression hpost n hbody he))

theorem shows_declaration (hpost : a.Postordered) (n k : Nat) :
    Shows (DeclTree.Stands a names) (a.places n) (Declaration k) := by
  induction n generalizing k with
  | zero => exact fun _ _ _ _ _ => List.nil_sublist _
  | succ n ih =>
    have hlocals : Shows (List.Forall₂ (DeclTree.Stands a names)) (fun ds => ds.flatMap (a.places n)) (Locals k) := by
      cases k with
      | zero => exact fun _ _ _ => False.elim
      | succ k => exact (ih k).letBlock
    intro ts t d hts hd
    rw [declaration_eq] at hts
    cases hts with
    | var _ _ _ _ _ hinit _ =>
      obtain ⟨v, hx, -, -, he, hplace⟩ := hd
      simp only [Arena.places, hx, hplace, tokenPlaces_cons, tokenPlaces_append]
      refine .cons_cons _ (.cons _ (.cons _ (List.sublist_append_of_sublist_right (.cons _ ?_))))
      exact List.sublist_append_of_sublist_left (shows_expression hpost k hinit he)
    | function hf =>
      obtain ⟨f, hx, hi⟩ := hd
      rw [Arena.places, hx]
      exact hlocals.function hpost hf hi
    | cls _ _ _ hfields _ _ hmethods _ =>
      obtain ⟨c, hx, -, hfs, hms, hplace⟩ := hd
      simp only [Arena.places, hx, hplace, tokenPlaces_cons, tokenPlaces_append]
      refine .cons_cons _ (.cons _ (.cons _ ((shows_members _ hfields hfs).append (.cons _ (.cons _ ?_)))))
      exact List.sublist_append_of_sublist_left
        ((hlocals.function hpost).many hmethods (FunctionTree.areAll_iff.1 hms))

/-- **A program shows its places.** -/
theorem shows_whole {p : Program} (hpost : p.arena.Postordered) {n : Nat} {ts : List Token} {t : ProgramTree}
    (hts : Whole n ts t) (hp : t.Is names p) : p.places.Sublist (tokenPlaces ts) := by
  cases hts with
  | mk hds hbody _ _ =>
    obtain ⟨hsds, hsbody⟩ := hp
    rw [Program.places, tokenPlaces_append, tokenPlaces_append]
    exact ((shows_declaration hpost _ n).letBlock hds (DeclTree.standAll_iff.1 hsds)).append
      (List.sublist_append_of_sublist_left (shows_expression hpost n hbody hsbody))

end Syntax

/-! ## Texts -/

section Parse

variable {text : String} {names names' : Names} {p : Program}

/-- A program that is read is every tree that the tokens of its text derive. -/
theorem is_of_whole (h : Program.parse text names = (.ok p, names')) {n : Nat} {tokens : List Token}
    {tree : Syntax.ProgramTree} (htokens : (Cursor.ofString text).readAll = tokens.map .ok)
    (hwhole : Syntax.Whole n tokens tree) : tree.Is names' p := by
  have hgives : Parser.Gives _ tree (Parser.program (.ofText text names)) := gives_of_whole htokens hwhole
  unfold Program.parse at h
  cases hrun : Parser.program (.ofText text names) with
  | ok q s =>
    rw [hrun] at hgives h
    cases h
    exact hgives
  | error e s =>
    rw [hrun] at h
    cases h

theorem tree_of_parse (h : Program.parse text names = (.ok p, names')) : ∃ tokens tree,
    (Cursor.ofString text).readAll = tokens.map .ok ∧ Syntax.Whole Parser.maxDepth tokens tree ∧ tree.Is names' p := by
  obtain ⟨tokens, tree, htokens, hwhole⟩ := whole_of_parse (congrArg Prod.fst h)
  exact ⟨tokens, tree, htokens, hwhole, is_of_whole h htokens hwhole⟩

/-- **The places of a program that is read from a text rise,** as far as 32 bits can count them. -/
theorem rises_of_parse (h : Program.parse text names = (.ok p, names')) (hbytes : Position.bytes text.toList + 1 < UInt32.size) :
    Rises p.places := by
  obtain ⟨tokens, tree, htokens, hwhole, htree⟩ := tree_of_parse h
  have hscans : Lexer.Scans [] text.toList (Cursor.ofString text).readAll := Cursor.scans_readAll [] text.toList
  have hrises := hscans.rises hbytes
  rw [htokens, List.map_map] at hrises
  refine Rises.sublist ⟨tokens.map (·.location), ?_, hrises⟩ (Syntax.shows_whole (placed_of_parse h).postordered hwhole htree)
  rw [Syntax.tokenPlaces, List.map_map]
  rfl

end Parse

end Fool
