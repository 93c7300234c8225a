import SyntaxChart.Proofs.Parsing
import Mathlib.Logic.ExistsUnique
import Mathlib.Logic.Relation
import Mathlib.Order.WellFounded

/-!
# Quoted data and the lists they spell

One list can be spelled in many ways: what stands behind a dot may be a list itself, and there may
be nothing in front of the dot. Rewriting these spellings anywhere in an s-expression (`Flattens`)
always comes to an end, and to the same end whatever is rewritten first. Two quoted s-expressions
stand for the same data exactly when these ends agree once their numerals are read
(`quotation_eq_iff_spelling_eq`): no other spelling is lost, and none that differs is confused.
-/

namespace SyntaxChart

namespace SExpr

/-- One rewriting of a dotted list, anywhere in an s-expression. -/
inductive Flattens : SExpr → SExpr → Prop
  | list (items more : List SExpr) : Flattens (.dotted items (.list more)) (.list (items ++ more))
  | dotted (items more : List SExpr) (tail : SExpr) :
      Flattens (.dotted items (.dotted more tail)) (.dotted (items ++ more) tail)
  | empty (tail : SExpr) : Flattens (.dotted [] tail) tail
  | inList (before : List SExpr) {x y : SExpr} (after : List SExpr) :
      Flattens x y → Flattens (.list (before ++ x :: after)) (.list (before ++ y :: after))
  | inItems (before : List SExpr) {x y : SExpr} (after : List SExpr) (tail : SExpr) :
      Flattens x y →
        Flattens (.dotted (before ++ x :: after) tail) (.dotted (before ++ y :: after) tail)
  | inTail (items : List SExpr) {x y : SExpr} :
      Flattens x y → Flattens (.dotted items x) (.dotted items y)

/-- Nothing is left to rewrite. -/
def IsFlat (x : SExpr) : Prop :=
  ∀ y, ¬Flattens x y

/-- What is left when an s-expression is rewritten for as long as it can be. -/
structure FlattensTo (x y : SExpr) : Prop where
  reaches : Relation.ReflTransGen Flattens x y
  isFlat : IsFlat y

/-! ## Every rewriting ends -/

mutual

/-- The number of dotted lists in an s-expression. -/
def dots : SExpr → Nat
  | .atom _ | .string _ => 0
  | .list items => dotsAll items
  | .dotted items tail => dotsAll items + dots tail + 1

def dotsAll : List SExpr → Nat
  | [] => 0
  | x :: items => dots x + dotsAll items

end

theorem dotsAll_append (items more : List SExpr) :
    dotsAll (items ++ more) = dotsAll items + dotsAll more := by
  induction items with
  | nil => simp [dotsAll]
  | cons x items ih => simp [dotsAll, ih, Nat.add_assoc]

/-- A rewriting does away with one dot. -/
theorem Flattens.dots_eq {x y : SExpr} (h : Flattens x y) : x.dots = y.dots + 1 := by
  induction h with
  | list items more => simp only [dots, dotsAll_append]
  | dotted items more tail => simp only [dots, dotsAll_append]; omega
  | empty tail => simp only [dots, dotsAll]; omega
  | inList before after _ ih => simp only [dots, dotsAll_append, dotsAll]; omega
  | inItems before after tail _ ih => simp only [dots, dotsAll_append, dotsAll]; omega
  | inTail items _ ih => simp only [dots]; omega

theorem wellFounded_flattens : WellFounded fun y x => Flattens x y := by
  refine Subrelation.wf (fun {y x} h => ?_) (measure dots).wf
  have : x.dots = y.dots + 1 := h.dots_eq
  exact (by omega : y.dots < x.dots)

/-! ## Every rewriting ends in the same -/

/-- Flat items in front of a flat tail. -/
def join : List SExpr → SExpr → SExpr
  | [], tail => tail
  | items, .list more => .list (items ++ more)
  | items, .dotted more tail => .dotted (items ++ more) tail
  | items, tail => .dotted items tail

mutual

def flat : SExpr → SExpr
  | .atom word => .atom word
  | .string text => .string text
  | .list items => .list (flatAll items)
  | .dotted items tail => join (flatAll items) (flat tail)

def flatAll : List SExpr → List SExpr
  | [] => []
  | x :: items => flat x :: flatAll items

end

theorem flatAll_eq (items : List SExpr) : flatAll items = items.map flat := by
  induction items with
  | nil => rfl
  | cons x items ih => rw [flatAll, ih, List.map_cons]

theorem join_list (items more : List SExpr) : join items (.list more) = .list (items ++ more) := by
  cases items <;> rfl

theorem join_join (items more : List SExpr) (tail : SExpr) :
    join items (join more tail) = join (items ++ more) tail := by
  cases items with
  | nil => rfl
  | cons x items =>
    cases more with
    | nil => simp [join]
    | cons y more => cases tail <;> simp [join]

theorem Flattens.flat_eq {x y : SExpr} (h : Flattens x y) : x.flat = y.flat := by
  induction h with
  | list items more => simp only [flat, join_list, flatAll_eq, List.map_append]
  | dotted items more tail => simp only [flat, join_join, flatAll_eq, List.map_append]
  | empty tail => simp only [flat, flatAll, join]
  | inList before after _ ih => simp only [flat, flatAll_eq, List.map_append, List.map_cons, ih]
  | inItems before after tail _ ih =>
    simp only [flat, flatAll_eq, List.map_append, List.map_cons, ih]
  | inTail items _ ih => simp only [flat, ih]

theorem reaches_join (items : List SExpr) (tail : SExpr) :
    Relation.ReflTransGen Flattens (.dotted items tail) (join items tail) := by
  cases items with
  | nil => exact .single (.empty tail)
  | cons x items =>
    cases tail with
    | list more => exact .single (.list _ more)
    | dotted more tail => exact .single (.dotted _ more tail)
    | _ => exact .refl

mutual

theorem reaches_flat : ∀ x : SExpr, Relation.ReflTransGen Flattens x x.flat
  | .atom word => by
    rw [flat]
  | .string text => by
    rw [flat]
  | .list items => by
    rw [flat]
    exact reaches_flatAll items SExpr.list (fun before _ _ after h => .inList before after h) []
  | .dotted items tail => by
    rw [flat]
    -- the items first, then the tail, and only then the one is put behind the other
    have hitems := reaches_flatAll items (SExpr.dotted · tail)
      (fun before _ _ after h => .inItems before after tail h) []
    have htail := (reaches_flat tail).lift (SExpr.dotted (flatAll items)) fun _ _ h =>
      Flattens.inTail _ h
    exact (hitems.trans htail).trans (reaches_join _ _)

/-- The items of a list can be made flat one after the other, `f` being what they stand in. -/
theorem reaches_flatAll : ∀ (items : List SExpr) (f : List SExpr → SExpr),
    (∀ before x y after, Flattens x y →
      Flattens (f (before ++ x :: after)) (f (before ++ y :: after))) →
      ∀ before, Relation.ReflTransGen Flattens (f (before ++ items)) (f (before ++ flatAll items))
  | [], f, _, before => by
    rw [flatAll]
  | x :: items, f, hf, before => by
    rw [flatAll]
    -- the first item, once flat, counts as standing before the others
    have hx := (reaches_flat x).lift (fun y => f (before ++ y :: items)) fun _ _ h =>
      hf before _ _ items h
    have hitems := reaches_flatAll items f hf (before ++ [x.flat])
    simp only [List.append_assoc, List.singleton_append] at hitems
    exact hx.trans hitems

end

theorem isFlat_list {items : List SExpr} : IsFlat (.list items) ↔ ∀ x ∈ items, IsFlat x := by
  constructor
  · intro h x hx y hy
    obtain ⟨before, after, rfl⟩ := List.append_of_mem hx
    exact h _ (.inList before after hy)
  · rintro h _ ⟨⟩
    rename_i hy
    exact h _ (by simp) _ hy

/-- An s-expression without parts. -/
def IsLeaf : SExpr → Prop
  | .atom _ | .string _ => True
  | .list _ | .dotted _ _ => False

theorem IsLeaf.isFlat {x : SExpr} (h : x.IsLeaf) : IsFlat x := by
  rintro y hy
  cases hy <;> exact h

theorem isFlat_dotted {items : List SExpr} {tail : SExpr} :
    IsFlat (.dotted items tail) ↔ items ≠ [] ∧ (∀ x ∈ items, IsFlat x) ∧ tail.IsLeaf := by
  constructor
  · intro h
    refine ⟨?_, fun x hx y hy => ?_, ?_⟩
    · rintro rfl
      exact h _ (.empty tail)
    · obtain ⟨before, after, rfl⟩ := List.append_of_mem hx
      exact h _ (.inItems before after tail hy)
    · cases tail with
      | list more => exact h _ (.list items more)
      | dotted more tail => exact h _ (.dotted items more tail)
      | _ => trivial
  · rintro ⟨hne, hitems, htail⟩ _ hy
    cases hy with
    | list => exact htail
    | dotted => exact htail
    | empty => exact hne rfl
    | inItems before after _ hy => exact hitems _ (by simp) _ hy
    | inTail _ hy => exact htail.isFlat _ hy

theorem isFlat_join {items : List SExpr} (hitems : ∀ x ∈ items, IsFlat x) {tail : SExpr}
    (htail : IsFlat tail) : IsFlat (join items tail) := by
  cases items with
  | nil => exact htail
  | cons x items =>
    cases tail with
    | list more =>
      rw [isFlat_list] at htail
      rw [join, isFlat_list]
      exact fun y hy => (List.mem_append.1 hy).elim (hitems y) (htail y)
      · simp
    | dotted more tail =>
      obtain ⟨-, hmore, hleaf⟩ := isFlat_dotted.1 htail
      exact isFlat_dotted.2 ⟨by simp, fun y hy => (List.mem_append.1 hy).elim (hitems y) (hmore y),
        hleaf⟩
    | _ => exact isFlat_dotted.2 ⟨by simp, hitems, trivial⟩

mutual

theorem isFlat_flat : ∀ x : SExpr, IsFlat x.flat
  | .atom _ => by
    rw [flat]
    exact IsLeaf.isFlat trivial
  | .string _ => by
    rw [flat]
    exact IsLeaf.isFlat trivial
  | .list items => by
    rw [flat, isFlat_list]
    exact isFlat_flatAll items
  | .dotted items tail => by
    rw [flat]
    exact isFlat_join (isFlat_flatAll items) (isFlat_flat tail)

theorem isFlat_flatAll : ∀ items : List SExpr, ∀ x ∈ flatAll items, IsFlat x
  | [] => by simp [flatAll]
  | x :: items => by
    rw [flatAll, List.forall_mem_cons]
    exact ⟨isFlat_flat x, isFlat_flatAll items⟩

end

theorem flattensTo_flat (x : SExpr) : FlattensTo x x.flat :=
  ⟨reaches_flat x, isFlat_flat x⟩

theorem flat_eq_of_reaches {x y : SExpr} (h : Relation.ReflTransGen Flattens x y) :
    x.flat = y.flat := by
  induction h with
  | refl => rfl
  | tail _ h ih => exact ih.trans h.flat_eq

theorem IsFlat.flat_eq {x : SExpr} (h : IsFlat x) : x.flat = x := by
  obtain he | ⟨y, hy, -⟩ := (reaches_flat x).cases_head
  · exact he.symm
  · exact absurd hy (h y)

theorem FlattensTo.eq_flat {x y : SExpr} (h : FlattensTo x y) : y = x.flat := by
  rw [flat_eq_of_reaches h.reaches, h.isFlat.flat_eq]

end SExpr

/-! ## What a flat s-expression spells -/

/-- An s-expression whose numerals are read. -/
inductive Spelling where
  | number (value : Binary64)
  | word (name : String)
  | string (text : String)
  | list (items : List Spelling)
  | dotted (items : List Spelling) (tail : Spelling)

namespace SExpr

def wordSpelling (word : String) : Spelling :=
  match Binary64.ofNumeral? word with
  | some x => .number x
  | none => .word word

mutual

/-- The s-expression with the number that a numeral denotes in place of every numeral. -/
def spelling : SExpr → Spelling
  | .atom word => wordSpelling word
  | .string text => .string text
  | .list items => .list (spellings items)
  | .dotted items tail => .dotted (spellings items) (spelling tail)

def spellings : List SExpr → List Spelling
  | [] => []
  | x :: items => spelling x :: spellings items

end

end SExpr

namespace Spelling

mutual

/-- The datum that is spelled so. -/
def datum : Spelling → Datum
  | .number x => .number x
  | .word name =>
    match Word.bool? name with
    | some b => .boolean b
    | none => .symbol name
  | .string text => .string text
  | .list items => datumOf items .empty
  | .dotted items tail => datumOf items (datum tail)

def datumOf : List Spelling → Datum → Datum
  | [], tail => tail
  | x :: items, tail => .pair (datum x) (datumOf items tail)

end

def cons (first : Spelling) : Spelling → Spelling
  | .list items => .list (first :: items)
  | .dotted items tail => .dotted (first :: items) tail
  | tail => .dotted [first] tail

end Spelling

namespace Datum

/-- The one flat way to spell a datum. -/
def spelling : Datum → Spelling
  | .empty => .list []
  | .symbol name => .word name
  | .number x => .number x
  | .boolean b => .word (Word.ofBool b)
  | .string text => .string text
  | .pair first rest => first.spelling.cons rest.spelling

theorem datum_wordSpelling (word : String) : (SExpr.wordSpelling word).datum = ofWord word := by
  rw [SExpr.wordSpelling, ofWord]
  cases Binary64.ofNumeral? word <;> rfl

theorem spelling_ofWord (word : String) : (ofWord word).spelling = SExpr.wordSpelling word := by
  rw [SExpr.wordSpelling, ofWord]
  rcases Binary64.ofNumeral? word with _ | x
  · rcases hb : Word.bool? word with _ | b
    · rfl
    · rw [Word.bool?_eq_some_iff.1 hb]
      rfl
  · rfl

mutual

theorem datum_spelling : ∀ x : SExpr, x.spelling.datum = ofSExpr x
  | .atom word => by
    rw [SExpr.spelling, ofSExpr]
    exact datum_wordSpelling word
  | .string text => by
    rw [SExpr.spelling, ofSExpr, Spelling.datum]
  | .list items => by
    rw [SExpr.spelling, ofSExpr, Spelling.datum]
    exact datumOf_spellings items .empty
  | .dotted items tail => by
    rw [SExpr.spelling, ofSExpr, Spelling.datum, datum_spelling tail]
    exact datumOf_spellings items (ofSExpr tail)

theorem datumOf_spellings : ∀ (items : List SExpr) (tail : Datum),
    Spelling.datumOf (SExpr.spellings items) tail = ofItems items tail
  | [], tail => by
    rw [SExpr.spellings, Spelling.datumOf, ofItems]
  | x :: items, tail => by
    rw [SExpr.spellings, Spelling.datumOf, ofItems, datum_spelling x, datumOf_spellings items tail]

end

/-- Rewriting a dotted list does not change what it stands for. -/
theorem ofSExpr_eq_of_flattens {x y : SExpr} (h : SExpr.Flattens x y) : ofSExpr x = ofSExpr y := by
  induction h with
  | list items more => simp [ofSExpr, ofItems_eq, ofList]
  | dotted items more tail => simp [ofSExpr, ofItems_eq, ofList]
  | empty tail => rw [ofSExpr, ofItems]
  | inList before after _ ih => simp only [ofSExpr, ofItems_eq, List.map_append, List.map_cons, ih]
  | inItems before after tail _ ih =>
    simp only [ofSExpr, ofItems_eq, List.map_append, List.map_cons, ih]
  | inTail items _ ih => simp only [ofSExpr, ih]

theorem ofSExpr_flat (x : SExpr) : ofSExpr x.flat = ofSExpr x := by
  have (y : SExpr) (h : Relation.ReflTransGen SExpr.Flattens x y) : ofSExpr y = ofSExpr x := by
    induction h with
    | refl => rfl
    | tail _ h ih => exact (ofSExpr_eq_of_flattens h).symm.trans ih
  exact this _ (SExpr.reaches_flat x)

theorem cons_wordSpelling (first : Spelling) (word : String) :
    first.cons (SExpr.wordSpelling word) = .dotted [first] (SExpr.wordSpelling word) := by
  rw [SExpr.wordSpelling]
  split <;> rfl

theorem spelling_join_cons (x : SExpr) (items : List SExpr) (tail : SExpr) :
    (SExpr.join (x :: items) tail).spelling = x.spelling.cons (SExpr.join items tail).spelling := by
  cases items with
  | nil =>
    cases tail with
    | atom word =>
      simp only [SExpr.join, SExpr.spelling, SExpr.spellings, cons_wordSpelling]
    | _ => simp [SExpr.join, SExpr.spelling, SExpr.spellings, Spelling.cons]
  | cons y items =>
    cases tail <;> simp [SExpr.join, SExpr.spelling, SExpr.spellings, Spelling.cons]

mutual

/-- A flat s-expression can be told from the datum it stands for, but for how its numerals are
written. -/
theorem spelling_flat : ∀ x : SExpr, x.flat.spelling = (ofSExpr x).spelling
  | .atom word => by
    rw [SExpr.flat, SExpr.spelling, ofSExpr, spelling_ofWord]
  | .string text => by
    rw [SExpr.flat, SExpr.spelling, ofSExpr, spelling]
  | .list items => by
    have := spelling_join_flatAll items (.list []) .empty (by rw [SExpr.spelling, spelling]; rfl)
    rwa [SExpr.join_list, List.append_nil] at this
  | .dotted items tail => by
    rw [SExpr.flat, ofSExpr]
    exact spelling_join_flatAll items tail.flat (ofSExpr tail) (spelling_flat tail)

theorem spelling_join_flatAll : ∀ (items : List SExpr) (tail : SExpr) (rest : Datum),
    tail.spelling = rest.spelling →
      (SExpr.join (SExpr.flatAll items) tail).spelling = (ofItems items rest).spelling
  | [], tail, rest, h => by
    rw [SExpr.flatAll, SExpr.join, ofItems, h]
  | x :: items, tail, rest, h => by
    rw [SExpr.flatAll, spelling_join_cons, ofItems, spelling, spelling_flat x,
      spelling_join_flatAll items tail rest h]

end

end Datum

theorem Expr.parse_quote (x : SExpr) : parse x.quote = .ok (.quotation (Datum.ofSExpr x)) := by
  have hk : keyword? (.atom "quote") = some .quote := keyword?_spelling .quote
  rw [SExpr.quote, parse.eq_def]
  simp only [hk]

/-- Quoted data depend only on the list structure they spell, and on all of it. Dotted lists can be
rewritten until none is left to rewrite, to an end that is the same in whatever order, and two
quotations are the same if and only if the two ends are the same for numerals read. -/
theorem quotation_eq_iff_spelling_eq :
    WellFounded (fun y x => SExpr.Flattens x y) ∧ (∀ x, ∃! y, SExpr.FlattensTo x y)
      ∧ ∀ a b : SExpr,
        (∃ d, Expr.parse a.quote = .ok (.quotation d) ∧ Expr.parse b.quote = .ok (.quotation d))
          ↔ ∃ a' b', a.FlattensTo a' ∧ b.FlattensTo b' ∧ a'.spelling = b'.spelling := by
  refine ⟨SExpr.wellFounded_flattens,
    fun x => ⟨x.flat, SExpr.flattensTo_flat x, fun _ h => h.eq_flat⟩, fun a b => ?_⟩
  simp only [Expr.parse_quote, Except.ok.injEq, Expr.quotation.injEq]
  constructor
  · rintro ⟨d, ha, hb⟩
    refine ⟨a.flat, b.flat, SExpr.flattensTo_flat a, SExpr.flattensTo_flat b, ?_⟩
    rw [Datum.spelling_flat, Datum.spelling_flat, ha, hb]
  · rintro ⟨_, _, ha, hb, h⟩
    rw [ha.eq_flat, hb.eq_flat] at h
    refine ⟨_, rfl, ?_⟩
    calc Datum.ofSExpr b = b.flat.spelling.datum := by
          rw [Datum.datum_spelling, Datum.ofSExpr_flat]
      _ = a.flat.spelling.datum := by rw [h]
      _ = Datum.ofSExpr a := by rw [Datum.datum_spelling, Datum.ofSExpr_flat]

/-- Dots that spell a list behind them add nothing to the list. -/
example : Datum.ofSExpr (.dotted [.atom "a"] (.dotted [.atom "b"] (.list [.atom "c"])))
    = Datum.ofSExpr (.list [.atom "a", .atom "b", .atom "c"]) := by
  decide

end SyntaxChart
