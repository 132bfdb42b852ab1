import Cookbook.Proofs.Rule.Inversion
import Cookbook.Proofs.Rule.Meaning

/-!
# Lowering preserves meaning

What binding makes of the expression of a term is what the reference interpreter makes of the term,
by induction on the term. Most constructs are lowered to what they mean. A sum is lowered to a
template, and its case rests on the template being read back as the parts of the sum.

## Main results

* `joins_of_lowerParts`: filling the template of a sum joins the text of its operands.
* `interpret_lower`: the value or the error, and the context, are the same.
-/

namespace Cookbook.Meaning

open Cookbook.Rule Cookbook.Binding

variable {formals : List String} {ancestry : Ancestry} {parameter : String}
  {expression : Expression}

/-! ## Running a meaning -/

section Run

variable {α β : Type}

theorem bind_run (x : Meaning α) (f : α → Meaning β) (context : Context) :
    (x >>= f) context = x context >>= fun result => f result.1 result.2 := rfl

theorem liftM_bind_run (x : Except Error α) (f : α → Meaning β) (context : Context) :
    ((liftM x : Meaning α) >>= f) context = x >>= fun a => f a context := by
  cases x with
  | ok a => rfl
  | error e => rfl

end Run

/-! ## Terms with their meanings -/

theorem interpretArguments_eq_map (arguments : List (Argument Term)) :
    interpretArguments ancestry parameter arguments =
      arguments.map (Argument.map fun term => ⟨term, interpret ancestry parameter term⟩) := by
  induction arguments with
  | nil => rfl
  | cons a arguments ih => rw [interpretArguments, ih, List.map_cons, Argument.map]

/-- The meaning of a term is what evaluating its expression does. -/
def Preserved (formals : List String) (ancestry : Ancestry) (parameter : String) (term : Term) :
    Prop :=
  ∀ expression, lower formals term = .ok expression →
    interpret ancestry parameter term = some (eval ancestry parameter expression)

/-! ## Fields and templates -/

theorem field_of_lowerDotted {term : Term} (h : lowerDotted formals term = .ok expression) :
    field ancestry parameter term = some (eval ancestry parameter expression) := by
  obtain ⟨base, path, hdotted, -, -, rfl⟩ := lowerDotted_inv h
  rw [field, hdotted]
  rfl

theorem values_of_forall₂ {arguments : List (Argument Term)} {lowered : List (Argument Expression)}
    (h : List.Forall₂ (fun a b => a.label = b.label ∧ interpret ancestry parameter a.value =
      some (eval ancestry parameter b.value)) arguments lowered) :
    values (interpretArguments ancestry parameter arguments) =
      some (evalArguments ancestry parameter lowered) := by
  induction h with
  | nil => rfl
  | cons hab _ ih =>
    obtain ⟨hlabel, hvalue⟩ := hab
    rw [interpretArguments, values, ih, hvalue, hlabel]
    rfl

theorem format_of_lowerFormat {template : String} {arguments : List (Argument Term)}
    (harguments : ∀ a ∈ arguments, Preserved formals ancestry parameter a.value)
    (h : lowerFormat template (lowerArguments formals arguments) = .ok expression) :
    format template (interpretArguments ancestry parameter arguments) =
      some (eval ancestry parameter expression) := by
  obtain ⟨pieces, lowered, -, hlowered, -, rfl⟩ := lowerFormat_inv h
  rw [lowerArguments_eq_map, List.forall₂_map_left_iff] at hlowered
  have hvalues : values (interpretArguments ancestry parameter arguments) =
      some (evalArguments ancestry parameter lowered) := by
    apply values_of_forall₂
    refine ((List.forall₂_and_left _ _).mpr ⟨harguments, hlowered⟩).imp ?_
    intro a b ⟨hpreserved, hlabel, hvalue⟩
    exact ⟨hlabel, hpreserved _ hvalue⟩
  -- Both evaluate the arguments first and then render the same template.
  rw [format, hvalues]
  refine congrArg some (funext fun context => ?_)
  rw [eval, bind_run]
  refine congrArg _ (funext fun result => ?_)
  rw [liftM_bind_run]
  rfl

theorem str_of_eval (value : Denoted)
    (h : value.meaning = some (eval ancestry parameter expression)) :
    str [⟨none, value⟩] =
      some (eval ancestry parameter (.format "\x7b\x7d" [⟨none, expression⟩])) := by
  have hrender (value : Json) : render "\x7b\x7d" [⟨none, value⟩] = .ok value.stringify := by
    have hparse : Template.parse "\x7b\x7d" = .ok [.hole .next] := by decide
    simp [render, hparse, fill, filling?, Argument.positionals, Argument.isPositional]
  rw [str, h]
  refine congrArg some (funext fun context => ?_)
  rw [eval, bind_run, evalArguments]
  cases eval ancestry parameter expression context with
  | error e => rfl
  | ok result =>
    show _ = render "\x7b\x7d" [⟨none, result.1⟩] >>= fun text => .ok (Json.str text, result.2)
    rw [hrender]
    rfl

/-! ## Sums -/

/-- Positional arguments with the given values. -/
def positional (values : List Json) : List (Argument Json) :=
  values.map fun value => ⟨none, value⟩

theorem positionals_positional (values : List Json) :
    Argument.positionals (positional values) = values := by
  induction values with
  | nil => rfl
  | cons value values ih => exact congrArg (value :: ·) ih

/-- `run` does what evaluating the arguments and filling the pieces with their values does; `front`
are the arguments of other pieces before these. -/
def Joins (ancestry : Ancestry) (parameter : String) (pieces : List Piece)
    (arguments : List (Argument Expression)) (run : Meaning (List Char)) : Prop :=
  ∀ context,
    (∃ error, evalArguments ancestry parameter arguments context = .error error ∧
      run context = .error error) ∨
    ∃ values after joined,
      evalArguments ancestry parameter arguments context = .ok (positional values, after) ∧
      run context = .ok (joined, after) ∧
      ∀ front, fill (positional (front ++ values)) front.length pieces = .ok joined

section Joins

variable {pieces : List Piece} {arguments : List (Argument Expression)}
  {run : Meaning (List Char)}

theorem joins_nil : Joins ancestry parameter [] [] (pure []) :=
  fun context => .inr ⟨[], context, [], rfl, rfl, fun _ => rfl⟩

/-- Text stands for itself. -/
theorem joins_text (h : Joins ancestry parameter pieces arguments run) (s : List Char) :
    Joins ancestry parameter (Template.consText s pieces) arguments
      (do return s ++ (← run)) := by
  intro context
  rcases h context with ⟨error, heval, hrun⟩ | ⟨values, after, joined, heval, hrun, hfill⟩
  · refine .inl ⟨error, heval, ?_⟩
    rw [bind_run, hrun]
    rfl
  · refine .inr ⟨values, after, s ++ joined, heval, ?_, fun front => ?_⟩
    · rw [bind_run, hrun]
      rfl
    · rw [Template.fill_consText, hfill]
      rfl

/-- An empty placeholder takes the value of the next argument. -/
theorem joins_hole (h : Joins ancestry parameter pieces arguments run) (value : Expression) :
    Joins ancestry parameter (.hole .next :: pieces) (⟨none, value⟩ :: arguments)
      (do
        let first : Json ← eval ancestry parameter value
        return first.stringify.toList ++ (← run)) := by
  intro context
  -- Either the value fails, or the other parts do in the context that it leaves, or nothing does.
  rw [evalArguments, bind_run]
  cases eval ancestry parameter value context with
  | error error => exact .inl ⟨error, rfl, rfl⟩
  | ok result =>
    obtain ⟨first, middle⟩ := result
    rcases h middle with ⟨error, heval, hrun⟩ | ⟨values, after, joined, heval, hrun, hfill⟩
    · refine .inl ⟨error, ?_, ?_⟩
      · show evalArguments ancestry parameter arguments middle >>= _ = _
        rw [heval]
        rfl
      · show run middle >>= _ = _
        rw [hrun]
        rfl
    · refine .inr ⟨first :: values, after, first.stringify.toList ++ joined, ?_, ?_, ?_⟩
      · show evalArguments ancestry parameter arguments middle >>= _ = _
        rw [heval]
        rfl
      · show run middle >>= _ = _
        rw [hrun]
        rfl
      · -- The value is one of those in front of the other pieces.
        intro front
        have hfirst : filling? (positional (front ++ first :: values)) front.length .next =
            some first := by
          simp [filling?, positionals_positional]
        have hothers : fill (positional (front ++ first :: values)) (front.length + 1) pieces =
            .ok joined := by
          simpa using hfill (front ++ [first])
        rw [fill, hfirst]
        simp only [if_true, hothers]

end Joins

/-- Filling the template of a sum joins the text of its operands from left to right. -/
theorem joins_of_lowerParts {parts : List Term} {template : List Char}
    {arguments : List (Argument Expression)}
    (hparts : ∀ part ∈ parts, Preserved formals ancestry parameter part)
    (h : lowerParts (lowerTerms formals parts) = .ok (template, arguments)) :
    ∃ run, joined (interpretTerms ancestry parameter parts) = some run ∧
      Joins ancestry parameter (sumPieces (lowerTerms formals parts)) arguments run := by
  induction parts generalizing template arguments with
  | nil =>
    cases h
    exact ⟨pure [], rfl, joins_nil⟩
  | cons part parts ih =>
    rw [List.forall_mem_cons] at hparts
    rw [lowerTerms] at h ⊢
    rw [interpretTerms]
    cases htext : text? part with
    | some s =>
      -- A literal goes into the template and takes no argument.
      obtain rfl : part = .text s := by
        cases part <;> cases htext
        rfl
      obtain ⟨rest, hrest, -⟩ := lowerParts_text_inv h
      obtain ⟨run, hrun, hjoins⟩ := ih hparts.2 hrest
      refine ⟨do return s.toList ++ (← run), ?_, joins_text hjoins s.toList⟩
      rw [joined, hrun]
      rfl
    | none =>
      -- Every other operand becomes an argument with an empty placeholder.
      have hnotext (s : String) : part ≠ .text s := by
        rintro rfl
        cases htext
      have hpart (s : String) (written) :
          (⟨part, lower formals part⟩ : Lowered) ≠ ⟨.text s, written⟩ :=
        fun heq => hnotext s (congrArg Lowered.term heq)
      obtain ⟨value, rest, others, hvalue, hrest, -, rfl⟩ := lowerParts_argument_inv hpart h
      obtain ⟨run, hrun, hjoins⟩ := ih hparts.2 hrest
      rw [sumPieces.eq_3 _ _ hpart,
        joined.eq_3 _ _ fun s _ heq => hnotext s (congrArg Denoted.term heq), hrun,
        hparts.1 value hvalue]
      exact ⟨_, rfl, joins_hole hjoins value⟩

theorem sum_of_lowerSum {parts : List Term}
    (hparts : ∀ part ∈ parts, Preserved formals ancestry parameter part)
    (h : lowerSum (lowerTerms formals parts) = .ok expression) :
    sum (interpretTerms ancestry parameter parts) =
      some (eval ancestry parameter expression) := by
  obtain ⟨template, arguments, hlower, rfl⟩ := lowerSum_inv h
  obtain ⟨run, hrun, hjoins⟩ := joins_of_lowerParts hparts hlower
  have hparse : Template.parse (String.ofList template) =
      .ok (sumPieces (lowerTerms formals parts)) := by
    rw [Template.parse, String.toList_ofList]
    exact pieces_lowerParts hlower
  -- The template is read back as the pieces of the sum, so rendering fills exactly these.
  rw [sum, hrun]
  refine congrArg some (funext fun context => ?_)
  rw [eval, bind_run]
  rcases hjoins context with ⟨error, heval, herror⟩ | ⟨values, after, joined, heval, hjoined, hfill⟩
  · rw [heval, herror]
    rfl
  · have hrender : render (String.ofList template) (positional values) =
        .ok (String.ofList joined) := by
      rw [render, hparse]
      simp only [show fill (positional values) 0 _ = _ from hfill []]
    rw [heval, hjoined]
    show _ = render (String.ofList template) (positional values) >>= _
    rw [hrender]
    rfl

/-! ## Accesses to the context -/

/-- The same argument stands in a place before and after lowering. -/
theorem slot?_lowerArguments (position : Nat) (label : String) (arguments : List (Argument Term)) :
    Argument.slot? position label (lowerArguments formals arguments) =
      (Argument.slot? position label arguments).map fun term => ⟨term, lower formals term⟩ := by
  rw [lowerArguments_eq_map, Argument.slot?_map]

theorem slot?_interpretArguments (position : Nat) (label : String)
    (arguments : List (Argument Term)) :
    Argument.slot? position label (interpretArguments ancestry parameter arguments) =
      (Argument.slot? position label arguments).map
        fun term => ⟨term, interpret ancestry parameter term⟩ := by
  rw [interpretArguments_eq_map, Argument.slot?_map]

theorem type?_of_typeArgument {primitive : Primitive} {written : Option Lowered}
    {named : Option TypeTag} (h : typeArgument primitive written = .ok named) :
    (written.bind fun w => type? w.term) = named := by
  unfold typeArgument at h
  split at h
  · cases h
    rfl
  all_goals
    first
    | cases h
    | split at h
      · next hnamed =>
        cases h
        exact hnamed
      · cases h

theorem read_eq_eval (key : String) (tag : TypeTag) :
    read key tag = eval ancestry parameter (.get key tag) := by
  refine funext fun context => ?_
  rw [eval, read, bind_run]
  show (liftM (readSlot key tag context) >>= fun slot => (pure slot.toJson : Meaning Json))
    context = _
  rw [liftM_bind_run]
  rfl

theorem write_eq_eval (key : String) (tag : TypeTag) (value : Expression) :
    write key tag (eval ancestry parameter value) =
      eval ancestry parameter (.capture key value tag) := by
  refine funext fun context => ?_
  rw [eval, write, bind_run]
  refine congrArg _ (funext fun result => ?_)
  show (liftM (captureSlot key tag result.1 result.2) >>= fun after =>
    (do set after; return result.1 : Meaning Json)) result.2 = _
  rw [liftM_bind_run]
  rfl

/-- The type that the last argument names is the one that the compiler read there. -/
theorem type?_slot? {primitive : Primitive} {position : Nat} {arguments : List (Argument Term)}
    {named : Option TypeTag}
    (h : typeArgument primitive
      (Argument.slot? position "type" (lowerArguments formals arguments)) = .ok named) :
    ((Argument.slot? position "type" (interpretArguments ancestry parameter arguments)).bind
      fun written => type? written.term) = named := by
  rw [← type?_of_typeArgument h, slot?_interpretArguments, slot?_lowerArguments, Option.bind_map,
    Option.bind_map]
  rfl

theorem access_of_lowerPrimitive {primitive : Primitive} {arguments : List (Argument Term)}
    (harguments : ∀ a ∈ arguments, Preserved formals ancestry parameter a.value)
    (h : lowerPrimitive formals primitive (lowerArguments formals arguments) = .ok expression) :
    access primitive (interpretArguments ancestry parameter arguments) =
      some (eval ancestry parameter expression) := by
  obtain ⟨-, -, key, written, named, hkey, hnamed, -, haccess⟩ := lowerPrimitive_inv h
  -- What the compiler found in a place, the interpreter finds there with its meaning.
  rw [slot?_lowerArguments] at hkey
  obtain ⟨first, hfirst, hterm⟩ := Option.map_eq_some_iff.mp hkey
  obtain rfl : first = .text key := congrArg Lowered.term hterm
  have hkey : Argument.slot? 0 "key" (interpretArguments ancestry parameter arguments) =
      some ⟨.text key, interpret ancestry parameter (.text key)⟩ := by
    rw [slot?_interpretArguments, hfirst]
    rfl
  rcases lowerAccess_inv haccess with ⟨implied, rfl, rfl⟩ |
    ⟨implied, value, lowered, rfl, hvalue, hlowered, rfl⟩
  · have htype : ((Argument.slot? 1 "type" (interpretArguments ancestry parameter arguments)).bind
        fun written => type? written.term) = named := type?_slot? hnamed
    rw [access, hkey, ← read_eq_eval, ← htype]
    rfl
  · rw [slot?_lowerArguments] at hvalue
    obtain ⟨captured, hcaptured, rfl⟩ := Option.map_eq_some_iff.mp hvalue
    obtain ⟨a, ha, rfl⟩ := Argument.mem_of_slot? hcaptured
    have hvalue : Argument.slot? 1 "value" (interpretArguments ancestry parameter arguments) =
        some ⟨a.value, some (eval ancestry parameter lowered)⟩ := by
      rw [slot?_interpretArguments, hcaptured, Option.map_some, harguments a ha lowered hlowered]
    have htype : ((Argument.slot? 2 "type" (interpretArguments ancestry parameter arguments)).bind
        fun written => type? written.term) = named := type?_slot? hnamed
    rw [access, hkey, ← write_eq_eval, ← htype]
    simp only [hvalue]
    rfl

/-! ## Calls, macros and tuples -/

theorem call_of_lowerCall {function : Term} {arguments : List (Argument Term)}
    (harguments : ∀ a ∈ arguments, Preserved formals ancestry parameter a.value)
    (h : lowerCall formals function (lowerArguments formals arguments) = .ok expression) :
    call function (interpretArguments ancestry parameter arguments) =
      some (eval ancestry parameter expression) := by
  -- A call that has an expression is one of `str`, of a primitive by its name or by the context's,
  -- or of `format` on a literal.
  rcases lowerCall_inv h with ⟨id, rfl, hfunction⟩ | ⟨method, primitive, rfl, hprimitive, haccess⟩ |
    ⟨template, rfl, hformat⟩
  · rcases lowerFunction_inv hfunction with
      ⟨rfl, value, lowered, hvalue, hlowered, rfl⟩ | ⟨hid, primitive, hprimitive, haccess⟩
    · rw [lowerArguments_eq_map, List.map_eq_singleton_iff] at hvalue
      obtain ⟨⟨label, term⟩, rfl, hvalue⟩ := hvalue
      cases hvalue
      have hterm := harguments _ List.mem_cons_self lowered hlowered
      exact str_of_eval ⟨term, interpret ancestry parameter term⟩ hterm
    · rw [call.eq_2 _ _ hid, hprimitive]
      exact access_of_lowerPrimitive harguments haccess
  · rw [contextName, call, hprimitive]
    exact access_of_lowerPrimitive harguments haccess
  · exact format_of_lowerFormat harguments hformat

theorem macroCall_of_lowerMacro {id : String} {arguments : List (Argument Term)}
    (harguments : ∀ a ∈ arguments, Preserved formals ancestry parameter a.value)
    (h : lowerMacro id (lowerArguments formals arguments) = .ok expression) :
    macroCall id (interpretArguments ancestry parameter arguments) =
      some (eval ancestry parameter expression) := by
  obtain ⟨rfl, template, written, rest, hrest, hformat⟩ := lowerMacro_inv h
  rw [lowerArguments_eq_map, List.map_eq_cons_iff] at hrest
  obtain ⟨⟨label, term⟩, others, rfl, hfirst, rfl⟩ := hrest
  cases hfirst
  rw [← lowerArguments_eq_map] at hformat
  exact format_of_lowerFormat (fun a ha => harguments a (List.mem_cons_of_mem _ ha)) hformat

theorem tuple_of_lowerTuple {items : List Term}
    (hitems : ∀ item ∈ items, Preserved formals ancestry parameter item)
    (h : lowerTuple formals (lowerTerms formals items) = .ok expression) :
    tuple (interpretTerms ancestry parameter items) =
      some (eval ancestry parameter expression) := by
  obtain ⟨-, value, written, hpair, hvalue⟩ := lowerTuple_inv h
  -- The two lowered items come from two terms, the second one being the name of the context.
  rw [lowerTerms_eq_map, List.map_eq_cons_iff] at hpair
  obtain ⟨item, others, rfl, rfl, hothers⟩ := hpair
  obtain ⟨other, rfl, hother⟩ := List.map_eq_singleton_iff.mp hothers
  cases hother
  exact hitems item List.mem_cons_self expression hvalue

/-! ## Terms -/

/-- Every term that has an expression has a meaning: what evaluating the expression does. -/
theorem preserved (term : Term) : Preserved formals ancestry parameter term := by
  induction term with
  | text value => rintro _ ⟨⟩; rfl
  | int value => rintro _ ⟨⟩; rfl
  | bool value => rintro _ ⟨⟩; rfl
  | none => rintro _ ⟨⟩; rfl
  | name id => exact fun expression h => field_of_lowerDotted h
  | field base name _ => exact fun expression h => field_of_lowerDotted h
  | call function arguments _ ih => exact fun expression h => call_of_lowerCall ih h
  | macroCall id arguments ih => exact fun expression h => macroCall_of_lowerMacro ih h
  | sum parts ih => exact fun expression h => sum_of_lowerSum ih h
  | conditional thenBranch condition otherwise iht ihc iho =>
    intro expression h
    obtain ⟨c, hc, h⟩ := bind_eq_ok_iff.mp h
    obtain ⟨t, ht, h⟩ := bind_eq_ok_iff.mp h
    obtain ⟨o, ho, h⟩ := bind_eq_ok_iff.mp h
    cases h
    -- Both evaluate the condition and then, in the context it leaves, one branch.
    rw [interpret, ihc c hc, iht t ht, iho o ho]
    refine congrArg some (funext fun context => ?_)
    rw [eval, bind_run]
    refine congrArg _ (funext fun ⟨test, after⟩ => ?_)
    show (if test.truthy then eval ancestry parameter t else eval ancestry parameter o) after =
      if test.truthy then eval ancestry parameter t after else eval ancestry parameter o after
    split <;> rfl
  | tuple items ih => exact fun expression h => tuple_of_lowerTuple ih h

/-- Lowering preserves meaning: evaluating the expression of a term gives the value or the error
that the term means, and leaves the same context. -/
theorem interpret_lower {term : Term} (h : lower formals term = .ok expression)
    (ancestry : Ancestry) (parameter : String) :
    ∃ meaning, interpret ancestry parameter term = some meaning ∧
      ∀ context, eval ancestry parameter expression context = meaning context :=
  ⟨_, preserved term expression h, fun _ => rfl⟩

/-- A field between braces, `'\x7b' + query + '\x7d\x7b\x7d'`. -/
def braced : Term :=
  .sum [.text "\x7b", .name "query", .text "\x7d\x7b\x7d"]

theorem interpret_braced :
    lower ["query"] braced =
      .ok (.format "\x7b\x7b\x7b\x7d\x7d\x7d\x7b\x7b\x7d\x7d" [⟨none, .field "query" []⟩]) ∧
    ∃ meaning, interpret (.ofList [("query", .int 3)]) "path" braced = some meaning ∧
      meaning .empty = .ok (.str "\x7b3\x7d\x7b\x7d", .empty) := by
  have hlower : lower ["query"] braced =
      .ok (.format "\x7b\x7b\x7b\x7d\x7d\x7d\x7b\x7b\x7d\x7d" [⟨none, .field "query" []⟩]) := by
    rfl
  obtain ⟨meaning, hmeaning, heval⟩ := interpret_lower hlower (.ofList [("query", .int 3)]) "path"
  refine ⟨hlower, meaning, hmeaning, ?_⟩
  rw [← heval]
  rfl

end Cookbook.Meaning
