import Cookbook.Proofs.Except
import Cookbook.Proofs.Registration.CallSite
import Cookbook.Proofs.Text.TripleQuoted

/-!
# What follows a call

A call is found by the lines in front of it, and it ends with the bracket that closes its
parenthesis. What stands behind that bracket has no part in what the call declares, not even a quote
or a number sign: the scan that finds the bracket has come there through code.

## Main results

* `scan_append_calm`: the scan of a text with another one behind it that starts calmly.
* `matchingClose?_behind`: a closing bracket is found whatever follows it.
* `exists_opening`: the text in front of the parenthesis of a call.
* `Registration.exists_behind`: a registration ends with a bracket, and does not depend on what
  follows it.
-/

namespace Cookbook

open Cookbook.Text

namespace Text

variable {text more group behind : List Char} {start offset depth : Nat} {mode : Mode} {c q : Char}
  {found others : List (Nat × Char)}

/-! ## The scan up to a closing bracket -/

theorem Scan.nil_append (mode : Mode) (s : Scan) : Scan.append ⟨[], mode⟩ s = s :=
  rfl

/-- The scan goes on behind a text from the state that it ends in. -/
theorem scan_append_calm (hmode : mode.WellQuoted) (hmore : Calm more) (text : List Char) :
    ∀ start, scan mode start (text ++ more) =
      (scan mode start text).append
        (scan (scan mode start text).mode (start + byteSize text) more) := by
  refine scan_induction (motive := fun mode text => mode.WellQuoted → ∀ start,
    scan mode start (text ++ more) = (scan mode start text).append
      (scan (scan mode start text).mode (start + byteSize text) more))
    ?nil ?dangling ?keep ?pass hmode text hmode
  case nil => exact fun _ _ _ => rfl
  case dangling =>
    -- The backslash escapes a character that would be passed over anyway.
    intro q hquoted start
    have hdangling : scan (.quoted q) start ['\\'] = ⟨[], .quoted q⟩ := by simp [scan]
    rw [hdangling]
    cases more with
    | nil => rw [List.append_nil, hdangling, Scan.append, scan]; rfl
    | cons c rest =>
      have hclose : Delimiter.close? ⟨q, false⟩ (c :: rest) = none :=
        close?_calm (hquoted q rfl) hmore
      have hslash : ¬(c = '\\' ∧ Delimiter.triple ⟨q, false⟩ = false) :=
        fun h => (hmore c rfl).2 h.1
      have hskip := scan_mode_skip hclose hslash (start + byteSize ['\\'])
      have hescape := @scan_mode_escape ⟨q, false⟩ rfl start c rest
      have hsize : byteSize ['\\', c] = byteSize ['\\'] + byteSize [c] := byteSize_append ['\\'] [c]
      rw [Scan.nil_append]
      exact (hescape.trans (by rw [hsize, Nat.add_assoc])).trans hskip.symm
  case keep =>
    intro mode c rest hkeeps hmore ih _ start
    rw [List.cons_append, hmore more, hkeeps, Scan.cons_append, ih wellQuoted_code, byteSize_cons,
      byteSize_cons, byteSize_nil, Nat.add_zero, Nat.add_assoc]
    rfl
  case pass =>
    intro mode taken next rest hnext hpasses hlong ih _ start
    rw [List.append_assoc, hlong more (hmore.decided _), hpasses, ih hnext, byteSize_append,
      Nat.add_assoc]

theorem calm_of_isClosing (hc : isClosing c = true) (rest : List Char) : Calm (c :: rest) := by
  rcases eq_of_isClosing hc with rfl | rfl | rfl <;> exact calm_cons rfl (by decide) rest

/-- A closing bracket is kept in code, and passed over elsewhere. -/
theorem scan_closing (hmode : mode.WellQuoted) (hc : isClosing c = true) (start : Nat)
    (rest : List Char) :
    mode = .code ∧ scan mode start (c :: rest) = (scan .code (start + 1) rest).cons start c ∨
      mode ≠ .code ∧ scan mode start (c :: rest) = scan mode (start + 1) rest := by
  obtain ⟨hhash, hquote, -, hbytes⟩ := of_isClosing hc
  have hcalm := calm_of_isClosing hc rest
  have hfeed : c ≠ '\n' := by rintro rfl; cases hc
  have hskip : ∀ d : Delimiter, isQuote d.quote = true →
      scan d.mode start (c :: rest) = scan d.mode (start + 1) rest := by
    intro d hd
    rw [scan_mode_skip (close?_calm hd hcalm) (fun h => (hcalm c rfl).2 h.1), hbytes]
  rw [← hbytes]
  cases mode with
  | code => exact .inl ⟨rfl, @scan_other false c (fun h => by cases h) hhash hquote start rest⟩
  | comment => exact .inr ⟨by simp, scan_comment hfeed start rest⟩
  | quoted q => exact .inr ⟨by simp, hbytes ▸ hskip ⟨q, false⟩ (hmode q rfl)⟩
  | tripled q => exact .inr ⟨by simp, hbytes ▸ hskip ⟨q, true⟩ (hmode q rfl)⟩

theorem le_of_mem_scan (hmode : mode.WellQuoted) {item : Nat × Char}
    (h : item ∈ (scan mode start text).structural) : start ≤ item.1 := by
  obtain ⟨front, back, -, hoffset⟩ := standsAt_of_mem_scan hmode start h
  omega

theorem lt_of_mem_structural {item : Nat × Char} (h : item ∈ structural text) :
    item.1 < byteSize text := by
  obtain ⟨front, back, rfl, hoffset⟩ := standsAt_of_mem_structural h
  have hpos := item.2.utf8Size_pos
  rw [byteSize_append, byteSize_cons]
  omega

/-- Brackets are closed where they are found to be, if nothing behind stands there. -/
theorem closeOf?_of_append (h : closeOf? depth (found ++ others) = some offset)
    (hothers : ∀ item ∈ others, item.1 ≠ offset) : closeOf? depth found = some offset := by
  fun_induction closeOf? depth found
  case case1 =>
    obtain ⟨c, -, hmem⟩ := exists_isClosing_of_closeOf? h
    exact absurd rfl (hothers _ hmem)
  case case2 c rest hopening ih => exact ih (by simpa [closeOf?, hopening] using h)
  case case3 c rest hopening hclosing => simp [closeOf?, hopening, hclosing] at h
  case case4 c rest hopening hclosing => simpa [closeOf?, hopening, hclosing] using h
  case case5 c rest hopening hclosing depth ih =>
    exact ih (by simpa [closeOf?, hopening, hclosing] using h)
  case case6 c rest hopening hclosing ih =>
    exact ih (by simpa [closeOf?, hopening, hclosing] using h)

/-- A closing bracket is found whatever follows it. -/
theorem matchingClose?_behind (hc : isClosing c = true)
    (h : matchingClose? (group ++ c :: behind) = some (byteSize group)) (other : List Char) :
    matchingClose? (group ++ c :: other) = some (byteSize group) := by
  have hwell : (scan .code 0 group).mode.WellQuoted := wellQuoted_mode_scan wellQuoted_code 0
  have hstructural : ∀ rest, structural (group ++ c :: rest) = structural group ++
      (scan (scan .code 0 group).mode (byteSize group) (c :: rest)).structural := by
    intro rest
    rw [structural, scan_append_calm wellQuoted_code (calm_of_isClosing hc rest), Nat.zero_add]
    rfl
  have hbefore : ∀ item ∈ structural group, item.1 ≠ byteSize group := fun item hitem =>
    Nat.ne_of_lt (lt_of_mem_structural hitem)
  have hbehind : ∀ (mode : Mode) rest, mode.WellQuoted →
      ∀ item ∈ (scan mode (byteSize group + 1) rest).structural, item.1 ≠ byteSize group := by
    intro mode rest hmode item hitem
    have hle := le_of_mem_scan hmode hitem
    omega
  rw [matchingClose?, hstructural] at h ⊢
  rcases scan_closing hwell hc (byteSize group) behind with ⟨hmode, hscan⟩ | ⟨-, hscan⟩
  · rw [hscan, Scan.cons, List.append_cons] at h
    have hhere := closeOf?_of_append h (hbehind _ _ wellQuoted_code)
    obtain ⟨-, hscan⟩ | ⟨hne, -⟩ := scan_closing hwell hc (byteSize group) other
    · rw [hscan, Scan.cons, List.append_cons]
      exact closeOf?_append hhere
    · exact absurd hmode hne
  · -- Otherwise no structural character stands at the offset of the bracket.
    rw [hscan] at h
    obtain ⟨_, -, hmem⟩ := exists_isClosing_of_closeOf? h
    rcases List.mem_append.mp hmem with hmem | hmem
    · exact absurd rfl (hbefore _ hmem)
    · exact absurd rfl (hbehind _ _ hwell _ hmem)

/-! ## Lines in front of a line -/

theorem exists_of_findSome?_locate {α : Type} {find : Nat × List Char → Option α} {a : α}
    {lines : List (List Char)} (h : (locate start lines).findSome? find = some a) :
    ∃ before line behind, lines = before ++ line :: behind ∧
      (∃ n, find (n, line) = some a) ∧ ∀ other ∈ before, ∃ n, find (n, other) = none := by
  induction lines generalizing start with
  | nil => cases h
  | cons first lines ih =>
    rw [locate, List.findSome?_cons] at h
    cases hfirst : find (start, first) with
    | some found =>
      rw [hfirst] at h
      exact ⟨[], first, lines, rfl, ⟨start, hfirst.trans h⟩, List.forall_mem_nil _⟩
    | none =>
      rw [hfirst] at h
      obtain ⟨before, line, behind, rfl, hline, hbefore⟩ := ih h
      exact ⟨first :: before, line, behind, rfl, hline,
        List.forall_mem_cons.mpr ⟨⟨start, hfirst⟩, hbefore⟩⟩

end Text

/-! ## The call -/

variable {header : List Char} {start : Nat} {call : Call} {registration : Registration}

/-- A line that begins with a call does so whatever follows on it. -/
theorem BeginsCall.append {line : List Char} (h : BeginsCall line) (rest : List Char) :
    BeginsCall (line ++ rest) := by
  obtain ⟨blanks, name, gap, more, rfl, hblanks, hname, hgap⟩ := h
  exact ⟨blanks, name, gap, more ++ rest, by simp, hblanks, hname, hgap⟩

/-- In front of the parenthesis of a call stand lines without calls, and the start of its line. -/
theorem exists_opening (h : Call.start? header = some start) :
    ∃ (site : CallStart) (rest : List Char), header = site.opening ++ '(' :: rest := by
  obtain ⟨before, line, behind, hlines, ⟨n, hline⟩, hbefore⟩ := exists_of_findSome?_locate h
  obtain ⟨bodies, rfl, hbodies⟩ := exists_bodies (isLine_of_fullLines hlines)
  have hstarts : Call.startsCall (trimStart line) = true := by
    dsimp only at hline
    split at hline
    · assumption
    · cases hline
  obtain ⟨blanks, name, gap, more, rfl, hblanks, hname, hgap⟩ := beginsCall_iff.mpr hstarts
  -- All of this stands in front of the parenthesis, so it is not at the end of the line.
  have hfeed : '\n' ∉ blanks ++ '@' :: (name ++ gap) := by
    have hmem : (blanks ++ '@' :: (name ++ gap)) ++ '(' :: more ∈ fullLines header := by
      simp [hlines]
    have hdrop := not_mem_dropLast_of_mem_fullLines hmem
    rw [List.dropLast_append_of_ne_nil (List.cons_ne_nil _ _)] at hdrop
    exact fun h => hdrop (List.mem_append_left _ h)
  have hearlier : ∀ body ∈ bodies, ¬BeginsCall body := by
    intro body hbody hbegins
    obtain ⟨n, hnone⟩ := hbefore _ (List.mem_map_of_mem hbody)
    have hcall := beginsCall_iff.mp (hbegins.append ['\n'])
    simp [hcall] at hnone
  let site : CallStart :=
    { lines := bodies, indent := blanks, name, gap, isLine := hbodies, earlier := hearlier
      isIndent := fun c hc => ⟨hblanks c hc, fun h => hfeed (h ▸ List.mem_append_left _ hc)⟩
      isWord := hname
      isGap := fun c hc => ⟨hgap c hc, fun h => hfeed (h ▸ by simp [hc])⟩ }
  refine ⟨site, more ++ behind.flatten, ?_⟩
  rw [← flatten_fullLines header, hlines]
  simp [site, CallStart.opening, CallStart.before, List.flatMap]

/-- A call ends with a closing bracket, and it is found whatever follows. -/
theorem Call.exists_behind (h : Call.find header = .ok call) :
    ∃ front inner c behind, header = front ++ '(' :: inner ++ c :: behind ∧ isClosing c = true ∧
      call.openAt = byteSize front ∧ call.closeAt = byteSize (front ++ '(' :: inner) ∧
      ∀ other, Call.find (front ++ '(' :: inner ++ c :: other) = .ok call := by
  have hstart : ∃ start, Call.start? header = some start := by
    unfold Call.find at h
    split at h
    · cases h
    · exact ⟨_, by assumption⟩
  obtain ⟨start, hstart⟩ := hstart
  obtain ⟨site, rest, rfl⟩ := exists_opening hstart
  rw [site.find_opening] at h
  split at h
  · cases h
  · next length hclose =>
    cases h
    obtain ⟨group, c, behind, hgroup, hclosing, rfl⟩ := exists_of_matchingClose? hclose
    -- The group is not empty, because the parenthesis that opens it does not close anything.
    cases group with
    | nil =>
      cases hgroup
      cases hclosing
    | cons d inner =>
      cases hgroup
      refine ⟨site.opening, inner, c, behind, by simp, hclosing, rfl, (byteSize_append ..).symm,
        fun other => ?_⟩
      have hother := @matchingClose?_behind ('(' :: inner) behind c hclosing hclose other
      rw [List.append_assoc, List.cons_append, site.find_opening, ← List.cons_append, hother]

theorem Call.inner_append {front inner : List Char} (hopen : call.openAt = byteSize front)
    (hclose : call.closeAt = byteSize (front ++ '(' :: inner)) (rest : List Char) :
    call.inner (front ++ '(' :: inner ++ rest) = inner := by
  have hsize : byteSize (front ++ '(' :: inner) = byteSize (front ++ ['(']) + byteSize inner := by
    rw [← byteSize_append, ← List.append_cons]
  have hstart : call.openAt + 1 = byteSize (front ++ ['(']) := by
    rw [hopen, byteSize_append]
    rfl
  rw [Call.inner, hclose, hstart, hsize, List.append_cons front '(' inner, sliceBytes_append]

/-- The offset behind a registration is that behind its call. -/
theorem Registration.stop_of_find (h : Registration.find header = .ok registration)
    (hcall : Call.find header = .ok call) : registration.stop = call.closeAt + 1 := by
  obtain ⟨found, hfound, h⟩ := bind_eq_ok_iff.mp h
  obtain rfl := Except.ok.inj (hcall.symm.trans hfound)
  obtain ⟨arguments, -, h⟩ := bind_eq_ok_iff.mp h
  obtain ⟨settings, -, h⟩ := bind_eq_ok_iff.mp h
  split at h
  · split at h
    · cases h
      rfl
    · cases h
  · cases h

/-- A registration ends with a closing bracket, and what follows it makes no difference. -/
theorem Registration.exists_behind (h : Registration.find header = .ok registration) :
    ∃ front c behind, header = front ++ c :: behind ∧ isClosing c = true ∧
      registration.stop = byteSize (front ++ [c]) ∧
      ∀ other, Registration.find (front ++ c :: other) = .ok registration := by
  obtain ⟨call, hcall, -⟩ := bind_eq_ok_iff.mp h
  obtain ⟨front, inner, c, behind, rfl, hclosing, hopen, hclose, hother⟩ := Call.exists_behind hcall
  -- Everything but the place of the call is read from the text between its parentheses.
  have hinner : ∀ rest, call.inner (front ++ '(' :: inner ++ rest) = inner :=
    Call.inner_append hopen hclose
  have harguments : ∀ other, call.arguments (front ++ '(' :: inner ++ c :: other) =
      call.arguments (front ++ '(' :: inner ++ c :: behind) := by
    intro other
    rw [Call.arguments, Call.arguments, hinner, hinner]
  have hfind : ∀ other, Registration.find (front ++ '(' :: inner ++ c :: other) =
      Registration.find (front ++ '(' :: inner ++ c :: behind) := by
    intro other
    simp only [Registration.find, hother, bind, Except.bind, harguments other]
  refine ⟨front ++ '(' :: inner, c, behind, rfl, hclosing, ?_, fun other => (hfind other).trans h⟩
  rw [Registration.stop_of_find h hcall, hclose, byteSize_append _ [c], (of_isClosing hclosing).2.2.2]

end Cookbook
