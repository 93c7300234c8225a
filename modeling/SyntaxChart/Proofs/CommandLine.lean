import SyntaxChart.Command.Outcome
import Mathlib.Data.List.Basic
import Mathlib.Tactic.SplitIfs

/-!
# What command lines say

A command line says things in order: calls for a log, directions, names of files
(`Command.Says`). Each can be written in several ways and stand anywhere, except that behind a lone
double hyphen there are names of files only. Whatever is written like this and names one file and
one direction at most makes a request, and nothing else does (`Command.request?_eq_some_iff`).
-/

namespace SyntaxChart

theorem eq_some_of_cons_eq_toList {α : Type} {a : α} {l : List α} {o : Option α}
    (h : a :: l = o.toList) : o = some a := by
  cases o <;> simp_all

theorem cons_cons_ne_toList {α : Type} (a b : α) (l : List α) (o : Option α) :
    a :: b :: l ≠ o.toList := by
  cases o <;> simp

theorem Direction.ofCode?_eq_some_iff {code : String} {d : Direction} :
    ofCode? code = some d ↔ code = d.code := by
  rw [ofCode?]
  split_ifs with htd hlr <;> cases d <;> simp_all [Direction.code]

namespace Command

/-- One thing that a command line says. -/
inductive Item where
  | log
  | direction (d : Direction)
  | file (name : String)
deriving DecidableEq

namespace Item

def direction? : Item → Option Direction
  | direction d => some d
  | _ => none

def file? : Item → Option String
  | file name => some name
  | _ => none

end Item

/-- Short options joined behind one hyphen: `n` calls for a log and what follows them. -/
def joined (n : Nat) (more : List Char) : String :=
  String.ofList ('-' :: (List.replicate n 'v' ++ more))

/-- What one or two arguments say that belong together. -/
inductive Phrase : List String → List Item → Prop
  | file {name : String} :
      name = "-" ∨ name.toList.head? ≠ some '-' → Phrase [name] [.file name]
  | logs {n : Nat} : n ≠ 0 → Phrase [joined n []] (List.replicate n .log)
  | verbose : Phrase ["--verbose"] [.log]
  | short (n : Nat) (d : Direction) :
      Phrase [joined n ('d' :: d.code.toList)] (List.replicate n .log ++ [.direction d])
  | shortEquals (n : Nat) (d : Direction) :
      Phrase [joined n ('d' :: '=' :: d.code.toList)] (List.replicate n .log ++ [.direction d])
  | shortNext (n : Nat) (d : Direction) :
      Phrase [joined n ['d'], d.code] (List.replicate n .log ++ [.direction d])
  | longEquals (d : Direction) : Phrase ["--direction=" ++ d.code] [.direction d]
  | longNext (d : Direction) : Phrase ["--direction", d.code] [.direction d]

/-- What a command line says. Behind a lone double hyphen there are names of files only. -/
inductive Says : List String → List Item → Prop
  | nil : Says [] []
  | files (names : List String) : Says ("--" :: names) (names.map .file)
  | phrase {words args : List String} {items more : List Item} :
      Phrase words items → Says args more → Says (words ++ args) (items ++ more)

/-- What is said makes a request: one file at most, under a name that is not empty, and one
direction at most, or else downwards. -/
structure Asks (items : List Item) (request : Request) : Prop where
  file : items.filterMap Item.file? = request.file.toList
  file_ne : request.file ≠ some ""
  direction : items.filterMap Item.direction? = [] ∧ request.direction = .topDown
    ∨ items.filterMap Item.direction? = [request.direction]
  verbosity : request.verbosity = items.count .log

/-! ## Settings -/

namespace Settings

/-- Adds what an item says. -/
def add? (s : Settings) : Item → Option Settings
  | .log => some (s.addVerbosity 1)
  | .direction d => s.addDirection? d.code
  | .file name => s.addFile? name

theorem foldlM_add?_replicate (n : Nat) (s : Settings) :
    (List.replicate n Item.log).foldlM add? s = some (s.addVerbosity n) := by
  induction n generalizing s with
  | zero => rfl
  | succ n ih =>
    rw [List.replicate_succ, List.foldlM_cons, add?, Option.bind_eq_bind, Option.bind_some, ih]
    simp only [addVerbosity, Nat.add_assoc, Nat.add_comm 1]

/-- Items are added where they name no second file, none without a name, and no second direction. -/
theorem foldlM_add?_eq_some_iff {items : List Item} {s s' : Settings} (hs : s.file ≠ some "") :
    items.foldlM add? s = some s' ↔
      s.file.toList ++ items.filterMap Item.file? = s'.file.toList
        ∧ s'.file ≠ some ""
        ∧ s.direction.toList ++ items.filterMap Item.direction? = s'.direction.toList
        ∧ s'.verbosity = s.verbosity + items.count .log := by
  induction items generalizing s with
  | nil =>
    obtain ⟨file, direction, verbosity⟩ := s
    obtain ⟨file', direction', verbosity'⟩ := s'
    cases file <;> cases file' <;> cases direction <;> cases direction' <;> grind
  | cons item items ih =>
    rw [List.foldlM_cons, Option.bind_eq_bind]
    cases item with
    | log =>
      have hs' : (s.addVerbosity 1).file ≠ some "" := hs
      rw [add?, Option.bind_some, ih hs']
      simp [addVerbosity, List.filterMap_cons, Item.file?, Item.direction?, Nat.add_comm,
        Nat.add_left_comm]
    | direction d =>
      rcases hd : s.direction with _ | d'
      · have hadd : s.add? (.direction d) = some { s with direction := some d } := by
          simp [add?, addDirection?, hd, Direction.ofCode?_eq_some_iff.2 rfl]
        have hs' : { s with direction := some d }.file ≠ some "" := hs
        rw [hadd, Option.bind_some, ih hs']
        simp [List.filterMap_cons, Item.file?, Item.direction?]
      -- a second direction is refused, and no option holds two
      · have hadd : s.add? (.direction d) = none := by simp [add?, addDirection?, hd]
        simp [hadd, List.filterMap_cons, Item.direction?, cons_cons_ne_toList]
    | file name =>
      rcases hf : s.file with _ | name'
      · rcases eq_or_ne name "" with rfl | hname
        · have hadd : s.add? (.file "") = none := by simp [add?, addFile?]
          simp only [hadd, Option.bind_none, reduceCtorEq, false_iff]
          rintro ⟨hfile, hne, -⟩
          exact hne (eq_some_of_cons_eq_toList hfile)
        · have hadd : s.add? (.file name) = some { s with file := some name } := by
            simp [add?, addFile?, hf, hname]
          have hs' : { s with file := some name }.file ≠ some "" := by simpa using hname
          rw [hadd, Option.bind_some, ih hs']
          simp [List.filterMap_cons, Item.file?, Item.direction?]
      · have hadd : s.add? (.file name) = none := by simp [add?, addFile?, hf]
        simp [hadd, List.filterMap_cons, Item.file?, cons_cons_ne_toList]

theorem foldlM_add?_direction (n : Nat) (d : Direction) (s : Settings) :
    (List.replicate n Item.log ++ [Item.direction d]).foldlM add? s
      = (s.addVerbosity n).addDirection? d.code := by
  rw [List.foldlM_append, foldlM_add?_replicate]
  simp [add?]

end Settings

/-! ## Arguments -/

theorem shortOptions_replicate (k n : Nat) (more : List Char) :
    shortOptions k (List.replicate n 'v' ++ more) = shortOptions (k + n) more := by
  induction n generalizing k with
  | zero => rfl
  | succ n ih =>
    rw [List.replicate_succ, List.cons_append, shortOptions.eq_def]
    simp only [if_pos, ih, Nat.add_assoc, Nat.add_comm 1]

theorem argument_cons {c : Char} (hc : c ≠ '-') (cs : List Char) :
    argument (String.ofList ('-' :: c :: cs)) = shortOptions 0 (c :: cs) := by
  rw [argument, String.toList_ofList]
  split
  · rename_i heq
    cases heq
    exact absurd rfl hc
  · rename_i heq
    cases heq
    rfl
  · rename_i heq
    exact absurd rfl (heq c cs)

/-- Behind calls for a log, options are read as on their own. -/
theorem argument_joined {n : Nat} {more : List Char}
    (h : n = 0 → ∃ c cs, more = c :: cs ∧ c ≠ '-') :
    argument (joined n more) = shortOptions n more := by
  have hshort := shortOptions_replicate 0 n more
  rw [Nat.zero_add] at hshort
  rw [joined, ← hshort]
  cases n with
  | zero =>
    obtain ⟨c, cs, rfl, hc⟩ := h rfl
    exact argument_cons hc cs
  | succ n => exact argument_cons (by decide) _

theorem argument_joined_direction (n : Nat) (cs : List Char) :
    argument (joined n ('d' :: cs)) = shortOptions n ('d' :: cs) :=
  argument_joined fun _ => ⟨'d', cs, rfl, by decide⟩

theorem argument_file {name : String} (h : name = "-" ∨ name.toList.head? ≠ some '-') :
    argument name = .file name := by
  rcases h with rfl | h
  · rfl
  · rw [argument]
    split <;> simp_all

theorem shortOptions_code (n : Nat) (d : Direction) :
    shortOptions n ('d' :: d.code.toList) = .direction n (some d.code) := by
  cases d <;> rfl

theorem shortOptions_equals_code (n : Nat) (d : Direction) :
    shortOptions n ('d' :: '=' :: d.code.toList) = .direction n (some d.code) := by
  cases d <;> rfl

theorem readArguments?_of_direction {arg : String} {n : Nat} {d : Direction}
    (h : argument arg = .direction n (some d.code)) (s : Settings) (args : List String) :
    readArguments? s (arg :: args)
      = ((List.replicate n Item.log ++ [Item.direction d]).foldlM Settings.add? s).bind
        (readArguments? · args) := by
  rw [readArguments?, Settings.foldlM_add?_direction]
  simp only [h]

theorem readArguments?_of_direction_next {arg : String} {n : Nat}
    (h : argument arg = .direction n none) (d : Direction) (s : Settings) (args : List String) :
    readArguments? s (arg :: d.code :: args)
      = ((List.replicate n Item.log ++ [Item.direction d]).foldlM Settings.add? s).bind
        (readArguments? · args) := by
  rw [readArguments?, Settings.foldlM_add?_direction]
  simp only [h]

/-- A phrase adds what it says, and reading goes on behind it. -/
theorem Phrase.reads {words : List String} {items : List Item} (h : Phrase words items)
    (s : Settings) (args : List String) :
    readArguments? s (words ++ args)
      = (items.foldlM Settings.add? s).bind (readArguments? · args) := by
  cases h with
  | file hname =>
    simp only [List.cons_append, List.nil_append, readArguments?, argument_file hname]
    simp [Settings.add?]
  | @logs n hn =>
    have ha : argument (joined n []) = .verbosity n := argument_joined (absurd · hn)
    simp only [List.cons_append, List.nil_append, readArguments?, ha,
      Settings.foldlM_add?_replicate, Option.bind_some]
  | verbose => rfl
  | short n d =>
    exact readArguments?_of_direction
      ((argument_joined_direction n _).trans (shortOptions_code n d)) s args
  | shortEquals n d =>
    exact readArguments?_of_direction
      ((argument_joined_direction n _).trans (shortOptions_equals_code n d)) s args
  | shortNext n d =>
    exact readArguments?_of_direction_next (argument_joined_direction n []) d s args
  | longEquals d =>
    exact readArguments?_of_direction (n := 0) (by cases d <;> rfl) s args
  | longNext d => exact readArguments?_of_direction_next (n := 0) rfl d s args

theorem readFiles?_eq (names : List String) (s : Settings) :
    readFiles? s names = (names.map Item.file).foldlM Settings.add? s := by
  induction names generalizing s with
  | nil => rfl
  | cons name names ih =>
    rw [readFiles?, List.map_cons, List.foldlM_cons, Settings.add?, Option.bind_eq_bind]
    exact congrArg _ (funext ih)

theorem Says.reads {args : List String} {items : List Item} (h : Says args items) (s : Settings) :
    readArguments? s args = items.foldlM Settings.add? s := by
  induction h generalizing s with
  | nil => rfl
  | files names =>
    have ha : argument "--" = .endOfOptions := rfl
    simp only [readArguments?, ha, readFiles?_eq]
  | phrase hp _ ih =>
    rw [hp.reads, List.foldlM_append, Option.bind_eq_bind]
    exact congrArg _ (funext ih)

/-- How an argument is written that says this. -/
def Argument.Written (arg : String) : Argument → Prop
  | endOfOptions => arg = "--"
  | file name => name = arg ∧ (arg = "-" ∨ arg.toList.head? ≠ some '-')
  | verbosity n => Phrase [arg] (List.replicate n .log)
  | direction n (some code) =>
    ∀ d : Direction, code = d.code → Phrase [arg] (List.replicate n .log ++ [.direction d])
  | direction n none =>
    ∀ d : Direction, Phrase [arg, d.code] (List.replicate n .log ++ [.direction d])
  | unknown => True

theorem exists_replicate_append (c : Char) :
    ∀ cs : List Char, ∃ n more, cs = List.replicate n c ++ more ∧ more.head? ≠ some c
  | [] => ⟨0, [], rfl, by simp⟩
  | d :: cs => by
    rcases eq_or_ne d c with rfl | hd
    · obtain ⟨n, more, rfl, hmore⟩ := exists_replicate_append d cs
      exact ⟨n + 1, more, rfl, hmore⟩
    · exact ⟨0, d :: cs, rfl, by simpa using hd⟩

/-- Behind calls for a log there is nothing, or a direction, or nothing that has a meaning. -/
theorem written_shortOptions {n : Nat} {more : List Char} (hn : n = 0 → more ≠ [])
    (hmore : more.head? ≠ some 'v') : (shortOptions n more).Written (joined n more) := by
  rcases more with _ | ⟨c, cs⟩
  · exact .logs fun h => hn h rfl
  have hv : c ≠ 'v' := by simpa using hmore
  rcases eq_or_ne c 'd' with rfl | hd
  · rcases cs with _ | ⟨c, cs⟩
    · exact .shortNext n
    rcases eq_or_ne c '=' with rfl | heq
    · intro d hcode
      rw [← String.toList_ofList (l := cs), hcode]
      exact .shortEquals n d
    · have hs : shortOptions n ('d' :: c :: cs)
          = .direction n (some (String.ofList (c :: cs))) := by
        simp [shortOptions, heq]
      rw [hs]
      intro d hcode
      rw [← String.toList_ofList (l := c :: cs), hcode]
      exact .short n d
  · have hs : shortOptions n (c :: cs) = .unknown := by
      simp [shortOptions, hv, hd]
    rw [hs]
    trivial

theorem written_longOption (name : List Char) :
    (longOption name).Written (String.ofList ('-' :: '-' :: name)) := by
  rw [longOption]
  split_ifs with hnil hverbose hdirection hequals
  · rw [hnil]
    rfl
  · rw [hverbose]
    exact .verbose
  · rw [hdirection]
    exact .longNext
  · obtain ⟨code, rfl⟩ := List.isPrefixOf_iff_prefix.1 hequals
    intro d hcode
    have hcode : String.ofList code = d.code := hcode
    have harg : String.ofList ('-' :: '-' :: ("direction=".toList ++ code)) =
        "--direction=" ++ d.code := by
      rw [← String.toList_ofList (l := code), hcode]
      cases d <;> rfl
    rw [harg]
    exact .longEquals d
  · trivial

theorem written_argument (arg : String) : (argument arg).Written arg := by
  obtain ⟨cs, rfl⟩ : ∃ cs, arg = String.ofList cs := ⟨arg.toList, arg.ofList_toList.symm⟩
  rcases cs with _ | ⟨c, cs⟩
  · exact ⟨rfl, .inr (by simp)⟩
  rcases eq_or_ne c '-' with rfl | hc
  · rcases cs with _ | ⟨c, cs⟩
    · exact ⟨rfl, .inl rfl⟩
    rcases eq_or_ne c '-' with rfl | hc
    · have ha : argument (String.ofList ('-' :: '-' :: cs)) = longOption cs := by
        rw [argument, String.toList_ofList]
        rfl
      rw [ha]
      exact written_longOption cs
    -- all calls for a log in front are taken off at once; what is left decides the rest
    · obtain ⟨n, more, hcs, hmore⟩ := exists_replicate_append 'v' (c :: cs)
      have hfirst : n = 0 → ∃ c cs, more = c :: cs ∧ c ≠ '-' := by
        rintro rfl
        exact ⟨c, cs, hcs.symm, hc⟩
      have hne : n = 0 → more ≠ [] := fun hn => by
        obtain ⟨c, cs, rfl, -⟩ := hfirst hn
        simp
      have harg : String.ofList ('-' :: c :: cs) = joined n more := by rw [hcs, joined]
      rw [harg, argument_joined hfirst]
      exact written_shortOptions hne hmore
  · have hname : (String.ofList (c :: cs)).toList.head? ≠ some '-' := by simpa using hc
    rw [argument_file (.inr hname)]
    exact ⟨rfl, .inr hname⟩

theorem Settings.exists_of_addDirection? {s s' : Settings} {code : String}
    (h : s.addDirection? code = some s') : ∃ d : Direction, code = d.code := by
  rw [addDirection?] at h
  split_ifs at h
  obtain ⟨d, hd, -⟩ := Option.map_eq_some_iff.1 h
  exact ⟨d, Direction.ofCode?_eq_some_iff.1 hd⟩

/-- What is read is said by the arguments. -/
theorem exists_items : ∀ {args : List String} {s s' : Settings},
    readArguments? s args = some s' → ∃ items, Says args items
  | [], _, _, _ => ⟨[], .nil⟩
  | arg :: args, s, s', h => by
    have hw := written_argument arg
    rw [readArguments?.eq_def] at h
    rcases ha : argument arg with _ | name | n | ⟨n, _ | code⟩ | _ <;> simp only [ha] at h hw
    · obtain rfl : arg = "--" := hw
      exact ⟨_, .files args⟩
    · obtain ⟨rfl, hname⟩ := hw
      obtain ⟨t, -, hrest⟩ := Option.bind_eq_some_iff.1 h
      obtain ⟨items, hi⟩ := exists_items hrest
      exact ⟨_, .phrase (.file hname) hi⟩
    · obtain ⟨items, hi⟩ := exists_items h
      exact ⟨_, .phrase hw hi⟩
    -- the code of the direction is the argument behind this one, whatever it looks like
    · rcases args with _ | ⟨code, args⟩
      · cases h
      obtain ⟨t, ht, hrest⟩ := Option.bind_eq_some_iff.1 h
      obtain ⟨d, rfl⟩ := Settings.exists_of_addDirection? ht
      obtain ⟨items, hi⟩ := exists_items hrest
      exact ⟨_, .phrase (hw d) hi⟩
    · obtain ⟨t, ht, hrest⟩ := Option.bind_eq_some_iff.1 h
      obtain ⟨d, hd⟩ := Settings.exists_of_addDirection? ht
      obtain ⟨items, hi⟩ := exists_items hrest
      exact ⟨_, .phrase (hw d hd) hi⟩
    · cases h

/-! ## Requests -/

theorem Settings.foldlM_add?_empty_iff {items : List Item} {request : Request} :
    (∃ s, items.foldlM add? empty = some s ∧ s.request = request) ↔ Asks items request := by
  constructor
  · rintro ⟨s, hs, rfl⟩
    obtain ⟨hfile, hne, hdirection, hverbosity⟩ := (foldlM_add?_eq_some_iff (by simp [empty])).1 hs
    refine ⟨hfile, hne, ?_, ?_⟩
    · rcases hd : s.direction with _ | d <;> rw [hd] at hdirection
      · exact .inl ⟨hdirection, by rw [request, hd]; rfl⟩
      · exact .inr (hdirection.trans (by rw [request, hd]; rfl))
    · exact hverbosity.trans (Nat.zero_add _)
  · rintro ⟨hfile, hne, hdirection, hverbosity⟩
    have hadd (o : Option Direction) (ho : items.filterMap Item.direction? = o.toList) :
        items.foldlM add? empty = some ⟨request.file, o, request.verbosity⟩ :=
      (foldlM_add?_eq_some_iff (by simp [empty])).2
        ⟨hfile, hne, ho, hverbosity.trans (Nat.zero_add _).symm⟩
    rcases hdirection with ⟨hnone, hd⟩ | hsome
    · exact ⟨_, hadd none hnone, by rw [Settings.request, Option.getD_none, ← hd]⟩
    · exact ⟨_, hadd (some request.direction) hsome, rfl⟩

theorem Says.request?_eq_some_iff {args : List String} {items : List Item} (h : Says args items)
    {request : Request} : request? args = some request ↔ Asks items request := by
  rw [request?, Option.map_eq_some_iff, h.reads]
  exact Settings.foldlM_add?_empty_iff

/-- A command line makes a request if it says what makes it. -/
theorem request?_eq_some_iff {args : List String} {request : Request} :
    request? args = some request ↔ ∃ items, Says args items ∧ Asks items request := by
  constructor
  · intro h
    obtain ⟨s, hs, -⟩ := Option.map_eq_some_iff.1 h
    obtain ⟨items, hi⟩ := exists_items hs
    exact ⟨items, hi, hi.request?_eq_some_iff.1 h⟩
  · rintro ⟨items, hi, hasks⟩
    exact hi.request?_eq_some_iff.2 hasks

end Command

end SyntaxChart
