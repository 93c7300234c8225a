import SyntaxChart.Proofs.Progress

/-!
# Reading with bounded fuel

The reader again, with a bound on how deep its calls and how long its loops may go: each call and
each round of a loop is given one unit of fuel less, and where none is left reading halts without an
answer. Three units for each character and two more are always enough
(`SExpr.readWithin_eq`), also for a text that is rejected.
-/

namespace SyntaxChart.SExpr

open Grammar

/-- Why a bounded reader gives no answer. -/
inductive Halt where
  | outOfFuel
  | rejected (error : ReadError)
deriving DecidableEq

abbrev Bounded (α : Type) := Except Halt α

/-- The second reading where the first is rejected. -/
def otherwise {α : Type} (x y : Bounded α) : Bounded α :=
  match x with
  | .error (.rejected _) => y
  | x => x

/-! ## The bounded reader -/

/-- Skips layout, one round after the other. -/
def skipWithin : Nat → List Char → Bounded (List Char)
  | 0, _ => .error .outOfFuel
  | fuel + 1, cs =>
    match skipRound cs with
    | .ok (.last rest) => .ok rest
    | .ok (.more rest) => skipWithin fuel rest
    | .error e => .error (.rejected e)

/-- Reads the rest of a string, one character or escape after the other. -/
def stringWithin : Nat → List Char → List Char → Bounded (List Char × List Char)
  | 0, _, _ => .error .outOfFuel
  | fuel + 1, text, cs =>
    match cs with
    | [] => .error (.rejected ⟨[]⟩)
    | c :: cs =>
      if c = '"' then .ok (text, cs)
      else if c = '\\' then
        match cs with
        | [] => .error (.rejected ⟨[]⟩)
        | e :: cs => stringWithin fuel (text ++ [unescape e]) cs
      else stringWithin fuel (text ++ [c]) cs

/-- Reads what stands behind a mark. -/
def behindWithin {α : Type} (mark : Char) (part : List Char → Bounded α) :
    List Char → Bounded α
  | [] => .error (.rejected ⟨[]⟩)
  | c :: cs => if c = mark then part cs else .error (.rejected ⟨c :: cs⟩)

def stringLiteralWithin (fuel : Nat) : List Char → Bounded (SExpr × List Char) :=
  behindWithin '"' fun cs => do
    let (text, rest) ← stringWithin fuel [] cs
    return (.string (String.ofList text), rest)

/-- Ends a list that reads as the datum with the parenthesis behind layout. -/
def closeWithin (fuel : Nat) (datum : SExpr) (cs : List Char) : Bounded (SExpr × List Char) := do
  let close ← skipWithin fuel cs
  if close.head? = some ')' then return (datum, close.tail) else .error (.rejected ⟨close⟩)

/-- Reads a word, which takes no call and no loop. -/
def tokenOrReject (cs : List Char) : Bounded (SExpr × List Char) :=
  (token? cs).elim (.error (.rejected ⟨cs⟩)) .ok

mutual

def datumWithin : Nat → List Char → Bounded (SExpr × List Char)
  | 0, _ => .error .outOfFuel
  | fuel + 1, cs => do
    let start ← skipWithin fuel cs
    otherwise (listWithin fuel start) <| otherwise (quotedWithin fuel start) <|
      otherwise (stringLiteralWithin fuel start) <| tokenOrReject start

def listWithin : Nat → List Char → Bounded (SExpr × List Char)
  | 0, _ => .error .outOfFuel
  | fuel + 1, cs => behindWithin '(' (fun cs => itemsWithin fuel [] cs) cs

def quotedWithin : Nat → List Char → Bounded (SExpr × List Char)
  | 0, _ => .error .outOfFuel
  | fuel + 1, cs =>
    behindWithin '\'' (fun cs => do
      let (datum, rest) ← datumWithin fuel cs
      return (quote datum, rest)) cs

/-- Reads the rest of a list behind the items that were read, one item after the other. -/
def itemsWithin : Nat → List SExpr → List Char → Bounded (SExpr × List Char)
  | 0, _, _ => .error .outOfFuel
  | fuel + 1, items, cs => do
    let start ← skipWithin fuel cs
    if start.head? = some ')' then
      return (.list items, start.tail)
    let (item, rest) ← datumWithin fuel start
    if item.word? = some "." then
      if items.isEmpty then
        .error (.rejected ⟨rest⟩)
      else
        let (tail, rest) ← datumWithin fuel rest
        closeWithin fuel (.dotted items tail) rest
    else
      itemsWithin fuel (items ++ [item]) rest

end

/-- Reads a text that is one datum with layout around it. -/
def readWithin (fuel : Nat) (text : String) : Bounded SExpr := do
  let (datum, rest) ← datumWithin fuel text.toList
  let rest ← skipWithin fuel rest
  if rest = [] then return datum else .error (.rejected ⟨rest⟩)

/-! ## Enough fuel -/

/-- A bounded reading that comes to what the unbounded one comes to, and not for lack of fuel. -/
inductive Answers {α : Type} : Bounded α → Option α → Prop
  | ok (a : α) : Answers (.ok a) (some a)
  | rejected (e : ReadError) : Answers (.error (.rejected e)) none

namespace Answers

variable {α β : Type} {x : Bounded α} {o : Option α}

theorem bind (h : Answers x o) {f : α → Bounded β} {g : α → Option β}
    (hfg : ∀ a, o = some a → Answers (f a) (g a)) : Answers (x >>= f) (o.bind g) := by
  cases h with
  | ok a => exact hfg a rfl
  | rejected e => exact .rejected e

theorem map (h : Answers x o) (f : α → β) : Answers (x >>= fun a => pure (f a)) (o.map f) := by
  cases h with
  | ok a => exact .ok (f a)
  | rejected e => exact .rejected e

theorem otherwise_eq (h : Answers x o) (y : Bounded α) :
    otherwise x y = o.elim y .ok := by
  cases h <;> rfl

theorem behind {mark : Char} {cs : List Char} {f : List Char → Bounded α}
    {g : List Char → Option α} (h : ∀ rest, cs = mark :: rest → Answers (f rest) (g rest)) :
    Answers (behindWithin mark f cs) (behind? mark g cs) := by
  cases cs with
  | nil => exact .rejected _
  | cons c cs =>
    by_cases hc : c = mark
    · rw [behindWithin, behind?, if_pos hc, if_pos hc]
      exact h cs (by rw [hc])
    · rw [behindWithin, behind?, if_neg hc, if_neg hc]
      exact .rejected _

end Answers

theorem skipWithin_eq {fuel : Nat} {cs : List Char} (h : cs.length < fuel) :
    skipWithin fuel cs = (skipLayout cs).mapError .rejected := by
  induction fuel generalizing cs with
  | zero => omega
  | succ fuel ih =>
    rw [skipWithin, skipLayout_eq_skipRound]
    rcases hr : skipRound cs with e | rest | rest
    · rfl
    · rfl
    · have := length_lt_of_skipRound hr
      exact ih (by omega)

/-- What is behind layout and the parenthesis that ends a list. -/
def close? (cs : List Char) : Option (List Char) :=
  match skipLayout cs with
  | .ok (c :: rest) => if c = ')' then some rest else none
  | _ => none

/-- Where a list does not end yet, a datum stands next, and if it is a bare dot the tail. -/
theorem items?_of_skipLayout {cs start : List Char} (hs : skipLayout cs = .ok start)
    (hc : start.head? ≠ some ')') :
    items? cs = (datum? start).bind fun p =>
      if p.1.word? = some "." then
        (next? p.2).bind fun q => (close? q.2).map fun rest => ([], some q.1, rest)
      else (items? p.2).map fun q => (p.1 :: q.1, q.2.1, q.2.2) := by
  rw [items?_eq, hs]
  cases start with
  | nil => rw [datum?_nil]; rfl
  | cons c start =>
    have hclose : c ≠ ')' := by simpa using hc
    simp only [if_neg hclose]
    refine Option.bind_congr fun p _ => ?_
    obtain ⟨item, rest⟩ := p
    by_cases hdot : item.word? = some "."
    · simp only [if_pos hdot]
      refine Option.bind_congr fun q _ => ?_
      obtain ⟨tail, behind⟩ := q
      simp only [close?]
      rcases skipLayout behind with e | _ | ⟨d, rest⟩
      · rfl
      · rfl
      · by_cases hd : d = ')' <;> simp [hd]
    · simp only [if_neg hdot]

theorem answers_closeWithin {fuel : Nat} {cs : List Char} (h : cs.length < fuel) (datum : SExpr) :
    Answers (closeWithin fuel datum cs) ((close? cs).map fun rest => (datum, rest)) := by
  rw [closeWithin, close?, skipWithin_eq h]
  rcases skipLayout cs with e | _ | ⟨c, rest⟩
  · exact .rejected e
  · exact .rejected _
  · change Answers (if (c :: rest).head? = some ')' then _ else _) _
    by_cases hc : c = ')'
    · simp only [hc, List.head?_cons, if_true]
      exact .ok _
    · rw [if_neg (by simpa using hc)]
      simp only [if_neg hc]
      exact .rejected _

theorem answers_stringWithin {fuel : Nat} {cs : List Char} (h : cs.length < fuel)
    (text : List Char) :
    Answers (stringWithin fuel text cs)
      ((readString? cs).map fun (more, rest) => (text ++ more, rest)) := by
  induction fuel generalizing cs text with
  | zero => omega
  | succ fuel ih =>
    cases cs with
    | nil => exact .rejected _
    | cons c cs =>
      rw [List.length_cons] at h
      rw [stringWithin.eq_def, readString?.eq_def]
      simp only
      split_ifs with hq hb
      · rw [Option.map_some, List.append_nil]
        exact .ok _
      · cases cs with
        | nil => exact .rejected _
        | cons e cs =>
          rw [List.length_cons] at h
          have := ih (Nat.lt_of_succ_lt (Nat.lt_of_succ_lt_succ h)) (text ++ [unescape e])
          simpa [Function.comp_def] using this
      · simpa [Function.comp_def] using ih (Nat.lt_of_succ_lt_succ h) (text ++ [c])

theorem answers_stringLiteralWithin {fuel : Nat} {cs : List Char} (h : cs.length ≤ fuel) :
    Answers (stringLiteralWithin fuel cs) (stringLiteral? cs) := by
  refine .behind fun rest hcs => ?_
  have hlt : rest.length < fuel := by rw [hcs, List.length_cons] at h; omega
  have := (answers_stringWithin hlt []).map fun (text, rest) =>
    (string (String.ofList text), rest)
  simpa [Function.comp_def] using this

/-- What reading a datum behind layout comes to, and where it is rejected. -/
def nextOrReject (cs : List Char) : Bounded (SExpr × List Char) :=
  match skipLayout cs with
  | .error e => .error (.rejected e)
  | .ok start => (datum? start).elim (.error (.rejected ⟨start⟩)) .ok

theorem answers_nextOrReject (cs : List Char) : Answers (nextOrReject cs) (next? cs) := by
  rw [nextOrReject, next?_eq]
  cases skipLayout cs with
  | error e => exact .rejected e
  | ok start =>
    simp only
    cases datum? start with
    | none => exact .rejected _
    | some p => exact .ok p

mutual

theorem datumWithin_eq : ∀ {fuel : Nat} {cs : List Char}, 3 * cs.length + 2 ≤ fuel →
    datumWithin fuel cs = nextOrReject cs
  | 0, _, h => by omega
  | fuel + 1, cs, h => by
    rw [datumWithin, skipWithin_eq (by omega), nextOrReject]
    rcases hs : skipLayout cs with e | start
    · rfl
    have hle := length_le_of_skipLayout hs
    have hlist : Answers (listWithin fuel start) (list? start) := answers_listWithin (by omega)
    have hquoted : Answers (quotedWithin fuel start) (quoted? start) :=
      answers_quotedWithin (by omega)
    have hstring : Answers (stringLiteralWithin fuel start) (stringLiteral? start) :=
      answers_stringLiteralWithin (by omega)
    simp only [Except.mapError, bind, Except.bind]
    rw [hlist.otherwise_eq, hquoted.otherwise_eq, hstring.otherwise_eq, datum?_eq_or]
    rcases list? start with _ | p
    · rcases quoted? start with _ | p
      · rcases stringLiteral? start with _ | p <;> rfl
      · rfl
    · rfl

theorem answers_listWithin : ∀ {fuel : Nat} {cs : List Char}, 3 * cs.length + 1 ≤ fuel →
    Answers (listWithin fuel cs) (list? cs)
  | 0, _, h => by omega
  | fuel + 1, cs, h => by
    rw [listWithin, list?]
    refine .behind fun rest hcs => ?_
    rw [hcs, List.length_cons] at h
    exact answers_itemsWithin [] (by omega)

theorem answers_quotedWithin : ∀ {fuel : Nat} {cs : List Char}, 3 * cs.length + 1 ≤ fuel →
    Answers (quotedWithin fuel cs) (quoted? cs)
  | 0, _, h => by omega
  | fuel + 1, cs, h => by
    rw [quotedWithin, quoted?]
    refine .behind fun rest hcs => ?_
    rw [hcs, List.length_cons] at h
    rw [datumWithin_eq (by omega)]
    exact (answers_nextOrReject rest).map _

theorem answers_itemsWithin : ∀ {fuel : Nat} (items : List SExpr) {cs : List Char},
    3 * cs.length + 3 ≤ fuel → Answers (itemsWithin fuel items cs)
      ((items? cs).bind fun (more, tail, rest) => (ofItems? (items ++ more) tail).map (·, rest))
  | 0, _, _, h => by omega
  | fuel + 1, items, cs, h => by
    rw [itemsWithin, skipWithin_eq (by omega)]
    rcases hs : skipLayout cs with e | start
    · rw [items?_eq, hs]
      exact .rejected e
    change Answers (if start.head? = some ')' then _ else _) _
    by_cases hc : start.head? = some ')'
    · obtain ⟨rest, rfl⟩ := List.head?_eq_some_iff.1 hc
      rw [if_pos hc, items?_close (layout_of_skipLayout hs), Option.bind_some]
      simp only [List.append_nil, ofItems?]
      exact .ok _
    have hle := length_le_of_skipLayout hs
    have hdatum : Answers (datumWithin fuel start) (datum? start) := by
      have := answers_nextOrReject start
      rw [next?_eq, skipLayout_of_skipLayout hs] at this
      rwa [datumWithin_eq (by omega)]
    rw [if_neg hc, items?_of_skipLayout hs hc, Option.bind_assoc]
    refine hdatum.bind fun ⟨item, rest⟩ hitem => ?_
    have hlt := length_lt_of_datum? hitem
    simp only
    by_cases hdot : item.word? = some "."
    · rw [if_pos hdot, if_pos hdot, Option.bind_assoc]
      by_cases hempty : items.isEmpty = true
      · obtain rfl := List.isEmpty_iff.1 hempty
        have hnone : ((next? rest).bind fun p =>
            ((close? p.2).map fun behind => (([] : List SExpr), some p.1, behind)).bind
              fun q => (ofItems? ([] ++ q.1) q.2.1).map (·, q.2.2)) = none := by
          simp [Option.bind_eq_none_iff, ofItems?]
        rw [if_pos hempty, hnone]
        exact .rejected _
      · have htail : Answers (datumWithin fuel rest) (next? rest) := by
          rw [datumWithin_eq (by omega)]
          exact answers_nextOrReject rest
        rw [if_neg hempty]
        refine htail.bind fun ⟨tail, behind⟩ hnext => ?_
        have := length_lt_of_next? hnext
        have hclose : Answers (closeWithin fuel (.dotted items tail) behind) _ :=
          answers_closeWithin (by omega) _
        obtain ⟨first, items, rfl⟩ := List.exists_cons_of_ne_nil (mt List.isEmpty_iff.2 hempty)
        rw [Option.map_eq_bind] at hclose
        simpa [ofItems?, Function.comp_def, Option.bind_map] using hclose
    · have hrest : Answers (itemsWithin fuel (items ++ [item]) rest) _ :=
        answers_itemsWithin _ (by omega)
      rw [if_neg hdot, if_neg hdot, Option.bind_map]
      simpa [Function.comp_def] using hrest

end

/-- Three units of fuel for each character and two more are enough, whatever the text: the bounded
reader then accepts what the reader accepts, and rejects the rest at the same place. -/
theorem readWithin_eq {fuel : Nat} {text : String} (h : 3 * text.length + 2 ≤ fuel) :
    readWithin fuel text = (read text).mapError .rejected := by
  rw [← String.length_toList] at h
  rw [readWithin, datumWithin_eq h, nextOrReject, read]
  rcases hs : skipLayout text.toList with e | start
  · rfl
  rcases hd : datum? start with _ | ⟨datum, rest⟩
  · simp [hd, bind, Except.bind, Except.mapError]
  have hlt := length_lt_of_datum? hd
  have hle := length_le_of_skipLayout hs
  simp only [bind, Except.bind, hd, Option.elim_some]
  rw [skipWithin_eq (by omega)]
  rcases skipLayout rest with e | _ | ⟨c, behind⟩ <;> rfl

/-- Reading moves forward, so it ends on every text. What the skipper passes over is the longest
layout, behind which it passes over nothing, and each of its rounds but the last passes a semicolon.
A datum, and whatever it is tried as, leaves a shorter end of the text where it succeeds. So the
calls of the reader and the rounds of its loops are well founded, and a bounded reader with three
units of fuel for each character and two more never runs out of it. -/
theorem read_progresses :
    (∀ cs rest, skipLayout cs = .ok rest → LongestLayout cs rest ∧ skipLayout rest = .ok rest)
    ∧ (∀ cs, skipLayout cs = (skipRound cs).bind fun
        | .last rest => .ok rest
        | .more rest => skipLayout rest)
    ∧ (∀ cs rest, skipRound cs = .ok (.more rest) →
        ∃ spaces line, cs = spaces ++ ';' :: (line ++ rest))
    ∧ (∀ cs, datum? cs = (list? cs).or ((quoted? cs).or ((stringLiteral? cs).or (token? cs))))
    ∧ (∀ part ∈ [next?, list?, quoted?, stringLiteral?, token?], Advances part)
    ∧ (WellFounded fun b a => Calls a b)
    ∧ ∀ text fuel, 3 * text.length + 2 ≤ fuel →
        readWithin fuel text = (read text).mapError .rejected := by
  refine ⟨fun cs rest h => ⟨(longestLayout_of_skipLayout h).1, skipLayout_of_skipLayout h⟩,
    skipLayout_eq_skipRound, fun cs rest h => ?_, datum?_eq_or, ?_, wellFounded_calls,
    fun text fuel => readWithin_eq⟩
  · obtain ⟨spaces, line, hsplit, -⟩ := exists_of_skipRound_eq_more h
    exact ⟨spaces, line, hsplit⟩
  · exact advances_parts

/-- Layout that ends in a comment, a string in front of a parenthesis, and a list that a string
without an end makes unreadable. -/
theorem read_progresses_unterminated :
    LongestLayout "\t;x\n\n;".toList [] ∧ skipLayout [] = .ok []
    ∧ (∃ spaces line, "\t;x\n\n;".toList = spaces ++ ';' :: (line ++ "\n\n;".toList))
    ∧ (")".toList <:+ "\"a\")".toList ∧ ")".toList.length < "\"a\")".toList.length)
    ∧ readWithin 8 "(\"" = (read "(\"").mapError .rejected
    ∧ readWithin 8 "(\"" = .error (.rejected ⟨"(\"".toList⟩) := by
  obtain ⟨hlayout, -, hround, -, hparts, -, hfuel⟩ := read_progresses
  have hlongest := hlayout "\t;x\n\n;".toList [] (by rfl)
  have hstring : stringLiteral? "\"a\")".toList = some (.string "a", ")".toList) := by rfl
  exact ⟨hlongest.1, hlongest.2, hround _ _ (by rfl),
    hparts stringLiteral? (by simp) _ _ _ hstring, hfuel _ _ (by decide), by rfl⟩

end SyntaxChart.SExpr
