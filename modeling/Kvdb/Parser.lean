import Kvdb.Protocol

/-!
# What the parser reads off a line

`parse` finds the tokens of a line however the line is laid out: white space before, between and behind the tokens, and
one `;` at the end, with white space around it, make no difference (`parse_layout`).

`trim` is two loops over iterators in the source (`trimLoops`, `trimLoops_eq`). The second one goes back before it
tests; on the empty line that would leave the string, but `run` never parses the empty line.
-/

namespace Kvdb

namespace CommandParser

/-! ## The loops of `trim` -/

/-- The first loop: `rest` is what `start` has not passed yet. -/
def skipSpaces : Bytes → Nat → Nat
  | [], start => start
  | b :: rest, start => if isSpace b then skipSpaces rest (start + 1) else start

/-- The second loop: `end` goes back by one, and again as long as it is behind `start` and at a space. -/
def backSpaces (str : Bytes) (start : Nat) : Nat → Nat
  | 0 => 0
  | e + 1 => if start < e ∧ isSpace (str.getD e 0) then backSpaces str start e else e

/-- `std::string(start, end + 1)` after the two loops. -/
def trimLoops (str : Bytes) : Bytes :=
  let start := skipSpaces str 0
  (str.drop start).take (backSpaces str start str.length + 1 - start)

theorem skipSpaces_eq (rest : Bytes) (start : Nat) :
    skipSpaces rest start = start + (rest.takeWhile isSpace).length := by
  induction rest generalizing start with
  | nil => rfl
  | cons b rest ih =>
    rw [skipSpaces, List.takeWhile_cons]
    split
    · rw [ih, List.length_cons]
      omega
    · rfl

/-- What the second loop leaves of a string whose character at `start` is not a space. -/
theorem take_backSpaces {str : Bytes} {start : Nat} (hstart : ∀ b ∈ str[start]?, isSpace b = false) :
    ∀ {e : Nat}, start < e → e ≤ str.length →
      (str.drop start).take (backSpaces str start e + 1 - start) =
        ((str.drop start).take (e - start)).rdropWhile isSpace
  | 0, h, _ => absurd h (Nat.not_lt_zero _)
  | e + 1, h, he => by
    have hlen : e - start < (str.drop start).length := by rw [List.length_drop]; omega
    have hlast : (str.drop start).take (e + 1 - start) = (str.drop start).take (e - start) ++ [str[e]] := by
      rw [Nat.succ_sub (Nat.le_of_lt_succ h), List.take_succ_eq_append_getElem hlen, List.getElem_drop]
      congr 3
      omega
    have hget : str.getD e 0 = str[e] := List.getD_eq_getElem _ _ he
    rw [backSpaces, hget, hlast]
    by_cases hspace : isSpace str[e] = true
    · rw [List.rdropWhile_concat_pos _ _ _ hspace]
      have hne : start ≠ e := by
        rintro rfl
        have := hstart str[start] (by rw [List.getElem?_eq_getElem he]; rfl)
        rw [hspace] at this
        cases this
      rw [if_pos ⟨by omega, hspace⟩]
      exact take_backSpaces hstart (by omega) (by omega)
    · rw [if_neg fun hc => hspace hc.2, hlast, List.rdropWhile_concat_neg _ _ _ hspace]

/-- **The loops of `trim`** strip a string. -/
theorem trimLoops_eq (str : Bytes) : trimLoops str = trim str := by
  have hstart : skipSpaces str 0 = (str.takeWhile isSpace).length := by rw [skipSpaces_eq, Nat.zero_add]
  have hdrop : str.drop (str.takeWhile isSpace).length = str.dropWhile isSpace := by
    have h : (str.takeWhile isSpace ++ str.dropWhile isSpace).drop (str.takeWhile isSpace).length = _ := List.drop_left
    rwa [List.takeWhile_append_dropWhile] at h
  dsimp only [trimLoops, trim]
  rw [hstart, hdrop]
  cases hrest : str.dropWhile isSpace with
  | nil => rw [List.take_nil, List.rdropWhile_nil]
  | cons b rest =>
    have hb : isSpace b = false := by
      have hhead := List.head?_dropWhile_not isSpace str
      rw [hrest] at hhead
      exact hhead
    rw [hrest] at hdrop
    have hget : str[(str.takeWhile isSpace).length]? = some b := by rw [← List.head?_drop, hdrop, List.head?_cons]
    have hlt := (List.getElem?_eq_some_iff.mp hget).1
    have hloop := take_backSpaces (e := str.length) (fun c hc => by rw [hget] at hc; cases hc; exact hb) hlt le_rfl
    rw [← List.length_drop, List.take_length, hdrop] at hloop
    exact hloop

/-! ## Blanks and tokens -/

/-- White space only. -/
def Blank (text : Bytes) : Prop := ∀ b ∈ text, isSpace b = true

/-- Not empty, and without white space. -/
def IsToken (text : Bytes) : Prop := text ≠ [] ∧ ∀ b ∈ text, isSpace b = false

instance (text : Bytes) : Decidable (Blank text) := List.decidableBAll _ text

instance (text : Bytes) : Decidable (IsToken text) := @instDecidableAnd _ _ inferInstance (List.decidableBAll _ text)

theorem Blank.append {a b : Bytes} (ha : Blank a) (hb : Blank b) : Blank (a ++ b) :=
  fun c hc => (List.mem_append.mp hc).elim (ha c) (hb c)

theorem IsToken.head {text : Bytes} (h : IsToken text) : ∀ b ∈ text.head?, isSpace b = false :=
  fun b hb => h.2 b (List.mem_of_mem_head? hb)

theorem IsToken.last {text : Bytes} (h : IsToken text) : ∀ b ∈ text.getLast?, isSpace b = false :=
  fun b hb => h.2 b (List.mem_of_getLast? hb)

/-- `trim` finds a text that neither starts nor ends with a space between blanks. -/
theorem trim_eq {lead text trail : Bytes} (hlead : Blank lead) (htrail : Blank trail)
    (hhead : ∀ b ∈ text.head?, isSpace b = false) (hlast : ∀ b ∈ text.getLast?, isSpace b = false) :
    trim (lead ++ text ++ trail) = text := by
  have hdrop : (lead ++ text ++ trail).dropWhile isSpace = (text ++ trail).dropWhile isSpace := by
    rw [List.append_assoc]
    exact List.dropWhile_append_of_pos hlead
  rw [trim, hdrop]
  cases text with
  | nil =>
    rw [List.nil_append, List.dropWhile_eq_nil_iff.mpr htrail, List.rdropWhile_nil]
  | cons b text =>
    have hb := hhead b rfl
    rw [List.cons_append, List.dropWhile_cons_of_neg (by simp [hb]), ← List.cons_append, List.rdropWhile,
      List.reverse_append, List.dropWhile_append_of_pos fun c hc => htrail c (List.mem_reverse.mp hc)]
    have hrev : ((b :: text).reverse.dropWhile isSpace) = (b :: text).reverse := by
      rw [← List.head?_reverse] at hlast
      cases hr : (b :: text).reverse with
      | nil => rfl
      | cons c rest => exact List.dropWhile_cons_of_neg (by simp [hlast c (by rw [hr]; rfl)])
    rw [hrev, List.reverse_reverse]

theorem tokens_blank {ws : Bytes} (h : Blank ws) (rest : Bytes) : tokens [] (ws ++ rest) = tokens [] rest := by
  induction ws with
  | nil => rfl
  | cons b ws ih =>
    rw [List.cons_append, tokens, if_pos (h b List.mem_cons_self), if_pos rfl]
    exact ih fun c hc => h c (List.mem_cons_of_mem _ hc)

theorem tokens_token {text : Bytes} (h : ∀ b ∈ text, isSpace b = false) (token rest : Bytes) :
    tokens token (text ++ rest) = tokens (token ++ text) rest := by
  induction text generalizing token with
  | nil => rw [List.nil_append, List.append_nil]
  | cons b text ih =>
    rw [List.cons_append, tokens, if_neg (by simp [h b List.mem_cons_self]),
      ih fun c hc => h c (List.mem_cons_of_mem _ hc), List.append_assoc, List.singleton_append]

theorem tokens_sep {ws token : Bytes} (h : Blank ws) (hws : ws ≠ []) (htok : token ≠ []) (rest : Bytes) :
    tokens token (ws ++ rest) = token :: tokens [] rest := by
  obtain ⟨b, ws, rfl⟩ := List.exists_cons_of_ne_nil hws
  rw [List.cons_append, tokens, if_pos (h b List.mem_cons_self), if_neg htok,
    tokens_blank fun c hc => h c (List.mem_cons_of_mem _ hc)]

/-! ## Layouts -/

/-- Tokens with what stands between them. -/
def spread (first : Bytes) : List (Bytes × Bytes) → Bytes
  | [] => first
  | (sep, token) :: rest => first ++ sep ++ spread token rest

/-- The last of the tokens. -/
def lastToken (first : Bytes) (rest : List (Bytes × Bytes)) : Bytes := (rest.map Prod.snd).getLastD first

/-- Every token but the first comes after white space. -/
def Separated (rest : List (Bytes × Bytes)) : Prop := ∀ p ∈ rest, (Blank p.1 ∧ p.1 ≠ []) ∧ IsToken p.2

instance (rest : List (Bytes × Bytes)) : Decidable (Separated rest) := List.decidableBAll _ rest

theorem spread_ne_nil {first : Bytes} (h : first ≠ []) (rest : List (Bytes × Bytes)) : spread first rest ≠ [] := by
  cases rest <;> simp [spread, h]

theorem getLast?_spread {rest : List (Bytes × Bytes)} (hrest : Separated rest) (first : Bytes) :
    (spread first rest).getLast? = (lastToken first rest).getLast? := by
  induction rest generalizing first with
  | nil => rfl
  | cons p rest ih =>
    obtain ⟨sep, token⟩ := p
    have htoken : IsToken token := (hrest _ List.mem_cons_self).2
    rw [spread, List.getLast?_append_of_ne_nil _ (spread_ne_nil htoken.1 rest),
      ih (fun p hp => hrest p (List.mem_cons_of_mem _ hp))]
    cases rest <;> rfl

theorem isToken_lastToken {first : Bytes} {rest : List (Bytes × Bytes)} (hfirst : IsToken first)
    (hrest : Separated rest) : IsToken (lastToken first rest) := by
  rw [lastToken, List.getLastD_eq_getLast?]
  cases h : (rest.map Prod.snd).getLast? with
  | none => exact hfirst
  | some token =>
    obtain ⟨p, hp, rfl⟩ := List.mem_map.mp (List.mem_of_getLast? h)
    exact (hrest p hp).2

/-- The tokens of a layout. -/
theorem tokens_spread {first : Bytes} {rest : List (Bytes × Bytes)} {trail : Bytes} (hfirst : IsToken first)
    (hrest : Separated rest) (htrail : Blank trail) :
    tokens [] (spread first rest ++ trail) = first :: rest.map Prod.snd := by
  induction rest generalizing first with
  | nil =>
    rw [spread, tokens_token hfirst.2, List.nil_append]
    cases trail with
    | nil => rw [tokens, if_neg hfirst.1]; rfl
    | cons b ws =>
      rw [← List.append_nil (b :: ws), tokens_sep htrail (by simp) hfirst.1]
      rfl
  | cons p rest ih =>
    obtain ⟨sep, token⟩ := p
    obtain ⟨⟨hsep, hne⟩, htoken⟩ := hrest _ List.mem_cons_self
    rw [spread, List.append_assoc, List.append_assoc, tokens_token hfirst.2, List.nil_append,
      tokens_sep hsep hne hfirst.1, ih htoken fun p hp => hrest p (List.mem_cons_of_mem _ hp)]
    rfl

theorem head?_spread {first : Bytes} (h : first ≠ []) (rest : List (Bytes × Bytes)) :
    (spread first rest).head? = first.head? := by
  obtain ⟨b, first, rfl⟩ := List.exists_cons_of_ne_nil h
  cases rest <;> rfl

/-- The terminator of a command, or nothing. -/
def terminator (present : Bool) : Bytes := if present then [59] else []

/-- Tokens laid out on a line. -/
def layout (lead first : Bytes) (rest : List (Bytes × Bytes)) (trail : Bytes) (terminated : Bool) (trail' : Bytes) :
    Bytes :=
  lead ++ spread first rest ++ trail ++ terminator terminated ++ trail'

/-- The tokens of a line; a terminator is taken off before them, so without one the last token must not end in `;`. -/
theorem parse_layout {lead first trail trail' : Bytes} {rest : List (Bytes × Bytes)} (terminated : Bool)
    (hlead : Blank lead) (hfirst : IsToken first) (hrest : Separated rest) (htrail : Blank trail)
    (htrail' : Blank trail') (hlast : terminated = false → (lastToken first rest).getLast? ≠ some 59) :
    parse (layout lead first rest trail terminated trail') =
      { name := first.map toUpper, args := rest.map Prod.snd } := by
  have hne := spread_ne_nil hfirst.1 rest
  have hhead : ∀ b ∈ (spread first rest).head?, isSpace b = false := by
    rw [head?_spread hfirst.1]
    exact hfirst.head
  cases terminated with
  | true =>
    have htrim : trim (layout lead first rest trail true trail') = spread first rest ++ trail ++ [59] := by
      have h : trim (lead ++ (spread first rest ++ trail ++ [59]) ++ trail') = _ := trim_eq hlead htrail'
        (by rw [List.append_assoc, List.head?_append_of_ne_nil _ hne]; exact hhead) (by simp [isSpace])
      simpa only [layout, terminator, if_true, List.append_assoc] using h
    simp only [parse, htrim, List.getLast?_concat, if_true, List.dropLast_concat, tokens_spread hfirst hrest htrail]
  | false =>
    have htrim : trim (layout lead first rest trail false trail') = spread first rest := by
      have h := trim_eq hlead (htrail.append htrail') hhead
        (by rw [getLast?_spread hrest]; exact (isToken_lastToken hfirst hrest).last)
      simpa only [layout, terminator, Bool.false_eq_true, if_false, List.append_nil, List.append_assoc] using h
    have htokens : tokens [] (spread first rest ++ []) = _ := tokens_spread hfirst hrest fun b hb => by cases hb
    rw [List.append_nil] at htokens
    have hlast := hlast rfl
    rw [← getLast?_spread hrest] at hlast
    simp only [parse, htrim, if_neg hlast, htokens]

/-- A line without tokens. -/
theorem parse_blank {lead trail : Bytes} (terminated : Bool) (hlead : Blank lead) (htrail : Blank trail) :
    parse (lead ++ terminator terminated ++ trail) = {} := by
  have htrim : trim (lead ++ terminator terminated ++ trail) = terminator terminated :=
    trim_eq hlead htrail (by cases terminated <;> simp [terminator, isSpace])
      (by cases terminated <;> simp [terminator, isSpace])
  rw [parse, htrim]
  cases terminated <;> rfl

/-- **Layout does not matter** to the parser, whose `trim` is the two loops of the source. -/
theorem layout_independent :
    (∀ {lead first trail trail' : Bytes} {rest : List (Bytes × Bytes)} (terminated : Bool), Blank lead →
      IsToken first → Separated rest → Blank trail → Blank trail' → (lastToken first rest).getLast? ≠ some 59 →
      parse (layout lead first rest trail terminated trail') =
        { name := first.map toUpper, args := rest.map Prod.snd }) ∧
    (∀ {lead trail : Bytes} (terminated : Bool), Blank lead → Blank trail →
      parse (lead ++ terminator terminated ++ trail) = {}) ∧
    ∀ line, trim line = trimLoops line :=
  ⟨fun terminated hlead hfirst hrest htrail htrail' hlast =>
      parse_layout terminated hlead hfirst hrest htrail htrail' fun _ => hlast,
    parse_blank, fun line => (trimLoops_eq line).symm⟩

/-- `PUT`, a key and a value behind tabs and blanks, with a terminator on its own. -/
theorem layout_independent_put :
    parse (layout [32] (ascii "put") [([9], ascii "a;"), ([32, 32], ascii "b")] [32] true [32]) =
      { name := ascii "PUT", args := [ascii "a;", ascii "b"] } ∧
    parse ([32, 9] ++ terminator true ++ [32]) = {} := by
  have hname : (ascii "put").map toUpper = ascii "PUT" := by decide +kernel
  obtain ⟨htokens, hblank, -⟩ := layout_independent
  refine ⟨?_, hblank true (by decide) (by decide)⟩
  rw [← hname]
  exact htokens true (by decide) (by decide +kernel) (by decide +kernel) (by decide) (by decide) (by decide +kernel)

end CommandParser

end Kvdb
