import Companion.Proofs.Grammar.EmbeddedBody
import Companion.Proofs.Grammar.FileReading
import Companion.Proofs.Grammar.Totality
import Companion.Proofs.Token.LineBreaks

/-!
The ways to write a namespace. A body stands between braces behind the name of the namespace, or
between the braces of several namespaces, one in the other (`bracedText`); or the namespace goes on
up to the end of the file (`fileScopedText`). What is read of a body that can be a file
(`Parsed.CanBeBody`) is the same each time, with all places moved on
(`Parsed.CanBeBody.wraps_bracedText`, `Parsed.CanBeBody.wraps_fileScopedText`).
-/

set_option autoImplicit false
set_option relaxedAutoImplicit false

namespace Companion

open Token Token.Lexeme TypeRef Companion.Parser

/-! ### Texts -/

/-- The beginning of a namespace, up to what stands in it. -/
def namespaceFront (mark : String) (ns : List String) : String :=
  "namespace " ++ joinWith "." ns ++ mark

/-- A text between the braces of namespaces, one in the other, of which each has a dotted name. -/
def bracedText (layers : List (List String)) (text : String) : String :=
  layers.foldr (fun ns inner ↦ namespaceFront " \x7b " ns ++ inner ++ " \x7d") text

/-- A text behind the name of a namespace that goes on up to the end of the file. -/
def fileScopedText (ns : List String) (text : String) : String := namespaceFront "; " ns ++ text

/-- A text that is read as one identifier. -/
def Token.IsIdent (n : String) : Prop := spell n.toList = [(.ident, n)]

namespace Token

variable {ns : List String}

theorem visible_dot {c : Char} (h : c.isDigit = false) (r : List Char) :
    visible ('.' :: c :: r) = ⟨.token .dot, ['.']⟩ :: visible (c :: r) := by
  have hscan : scan '.' (c :: r) = (.token .dot, 0) := by
    show point (c :: r) = _
    simp [point, h]
  rw [visible_cons _ (by rw [hscan]; simp), hscan]
  rfl

/-- Nothing but tokens is in a dotted name. -/
theorem forall_mem_visible_dotted {P : Lexeme → Prop}
    (hP : ∀ k text, k ≠ .error → P ⟨.token k, text⟩) (hns : ∀ n ∈ ns, IsIdent n) {r : List Char}
    (hr : breaks r = true) (h : ∀ l ∈ visible r, P l) :
    ∀ l ∈ visible ((joinWith "." ns).toList ++ r), P l := by
  have hname {n : String} (hn : IsIdent n) {r : List Char} (hr : breaks r = true)
      (h : ∀ l ∈ visible r, P l) : ∀ l ∈ visible (n.toList ++ r), P l := by
    obtain ⟨htext, hkind⟩ := isNameText_of_spell hn
    rw [visible_name htext hr, hkind]
    exact List.forall_mem_cons.mpr ⟨hP _ _ (by decide), h⟩
  induction ns with
  | nil => exact h
  | cons n ns ih =>
    have hmore := ih fun n hn ↦ hns n (List.mem_cons_of_mem _ hn)
    cases ns with
    | nil => exact hname (hns n List.mem_cons_self) hr h
    | cons next ns =>
      have hnext := isNameText_of_spell (hns next (by simp))
      obtain ⟨texts, htexts⟩ := toList_joinWith_cons "." next ns
      obtain ⟨c, more, hc, hdigit⟩ : ∃ c more, next.toList = c :: more ∧ c.isDigit = false := by
        obtain ⟨c, more, heq, rfl | hc⟩ := head_of_isNameText hnext.1
        · exact ⟨'@', more, heq, by decide⟩
        · exact ⟨c, more, heq, isDigit_of_startsWord hc⟩
      have htext : (joinWith "." (n :: next :: ns)).toList ++ r =
          n.toList ++ '.' :: ((joinWith "." (next :: ns)).toList ++ r) := by
        simp [joinWith]
      rw [htext]
      refine hname (hns n List.mem_cons_self) rfl ?_
      rw [htexts, hc] at hmore ⊢
      simp only [List.cons_append] at hmore ⊢
      rw [visible_dot hdigit]
      exact List.forall_mem_cons.mpr ⟨hP _ _ (by decide), hmore⟩

theorem toList_namespaceFront (mark : String) (ns : List String) :
    (namespaceFront mark ns).toList =
      "namespace".toList ++ ' ' :: ((joinWith "." ns).toList ++ mark.toList) := by
  simp only [namespaceFront, String.toList_append, List.append_assoc]
  rfl

/-- What stands in a namespace is read as it is read alone, whatever its name is. -/
theorem apart_namespaceFront {mark : String} (cs : List Char) (hmark : mark.toList = cs ++ [' '])
    (hbreaks : breaks cs = true) (hstops : ∀ l ∈ visible cs, l.StopsAt ' ')
    (hns : ∀ n ∈ ns, IsIdent n) : Apart (namespaceFront mark ns).toList := by
  rw [toList_namespaceFront, hmark, ← List.append_assoc, ← List.cons_append, ← List.append_assoc]
  refine apart_concat (by decide) (by decide) ?_
  rw [visible_word (by decide) rfl, visible_cons_skipped (by decide)]
  refine List.forall_mem_cons.mpr ⟨by decide, ?_⟩
  exact forall_mem_visible_dotted (fun k text hk ↦ ⟨by simpa using hk, by simp⟩) hns hbreaks hstops

theorem spell_namespaceFront (mark : String) (hbreaks : breaks mark.toList = true) (hne : ns ≠ [])
    (hns : ∀ n ∈ ns, IsIdent n) : spell (namespaceFront mark ns).toList =
      (.namespaceWord, "namespace") :: ((plain ns).tokens ++ spell mark.toList) := by
  have hname : spell ((joinWith "." (ns.map id)).toList ++ mark.toList) =
      [(.dot, ".")].intercalate (ns.map fun n ↦ [(.ident, n)]) ++ spell mark.toList := by
    refine spell_joinWith (fun n hn r (hr : breaks r = true) ↦ ?_) (fun n hn r ↦ ?_)
      (fun _ ↦ rfl) hne hbreaks
    · obtain ⟨htext, hkind⟩ := isNameText_of_spell (hns n hn)
      rw [id, spell_name htext hr, hkind, String.ofList_toList]
      rfl
    · exact spell_dot_name (isNameText_of_spell (hns n hn)).1 r
  rw [List.map_id] at hname
  rw [toList_namespaceFront, spell_name (by decide) rfl, spell_cons_skipped (by decide), hname,
    tokens_plain]
  rfl

/-- A text that ends at the end of a line, has no errors in it and no directive for an external
alias. -/
structure IsBody (cs : List Char) : Prop where
  ends : ∃ front, cs = front ++ ['\n']
  clean : IsClean (spell cs)
  noAlias : ∀ front back, spell cs ≠ front ++ (.ident, "extern") :: (.ident, "alias") :: back

theorem IsBody.apart {cs : List Char} (h : IsBody cs) : Apart cs := by
  obtain ⟨front, rfl⟩ := h.ends
  exact apart_of_newline h.clean

/-! ### Bodies at their places -/

/-- The tokens of a file without its end stand in front of anything that closes a body. -/
theorem embeds_of_not_alias (n : Nat) (rest : List Token) {e : Token} (he : e.kind = .eof) :
    ∀ ts : List Token, (∀ t ∈ ts, t.kind ≠ .eof) →
      (∀ front back, ts.map bare ≠ front ++ (.ident, "extern") :: (.ident, "alias") :: back) →
      Token.Embeds n rest (ts ++ [e]) (ts.map (moved n) ++ rest)
  | [], _, _ => .ends he
  | t :: ts, hkinds, halias => by
    obtain ⟨ht, hmore⟩ := List.forall_mem_cons.mp hkinds
    refine .token ht (fun hextern u hu ↦ ?_) (embeds_of_not_alias n rest he ts hmore ?_)
    · cases ts with
      | nil =>
        obtain rfl : e = u := Option.some.inj hu
        rw [Token.isWord, he]
        rfl
      | cons u' ts =>
        obtain rfl : u' = u := Option.some.inj hu
        rw [← Bool.not_eq_true]
        intro halias'
        refine halias [] (ts.map bare) ?_
        rw [List.map_cons, List.map_cons, bare_of_isWord hextern, bare_of_isWord halias',
          List.nil_append]
    · intro front back heq
      exact halias (t.bare :: front) back (by rw [List.map_cons, heq, List.cons_append])

end Token

namespace Parser

variable {α : Type} {p : Parser α}

theorem Afresh.exists_ok {ts : List Token} (h : p.Afresh ts) {s : Span} {a : α} {c : Cursor}
    (hok : p ⟨s, ts⟩ = ⟨.ok a, c, []⟩) (s' : Span) :
    ∃ s'', p ⟨s', ts⟩ = ⟨.ok a, ⟨s'', c.rest⟩, []⟩ := by
  obtain ⟨hresult, hreported, hrest⟩ := h.same s' s
  rw [hok] at hresult hreported hrest
  cases hsame : p ⟨s', ts⟩ with
  | mk r c' ds =>
    rw [hsame] at hresult hreported hrest
    obtain rfl : r = .ok a := hresult
    obtain rfl : ds = [] := hreported
    obtain ⟨s'', us⟩ := c'
    obtain rfl : us = c.rest := hrest
    exact ⟨s'', rfl⟩

/-- A parser that takes some tokens leaves those behind them. -/
theorem Takes.exists_ok {bs rest : List Bare} {post : α → Prop} (h : p.Takes bs rest post)
    (hforward : p.Forward) (ts us : List Token) (hts : ts.map bare = bs) (hus : us.map bare = rest)
    (previous : Span) :
    ∃ a s, p ⟨previous, ts ++ us⟩ = ⟨.ok a, ⟨s, us⟩, []⟩ ∧ post a := by
  obtain ⟨a, c', hok, hrest, ha⟩ := h ⟨previous, ts ++ us⟩
    (show (ts ++ us).map bare = bs ++ rest by rw [List.map_append, hts, hus])
  obtain ⟨read, hread, -⟩ := hforward ⟨previous, ts ++ us⟩
  rw [hok] at hread
  have hlength : us.length = c'.rest.length := by
    rw [hrest.length_rest, ← hus, List.length_map]
  have hsame : us = c'.rest := (List.append_inj' hread.rest_eq hlength).2
  exact ⟨a, c'.previous, by rw [hok, hsame], ha⟩

/-- A dotted name. -/
theorem takes_plainName {ns : List String} (hne : ns ≠ []) {rest : List Bare}
    (hrest : EndsName rest) :
    name.Takes (plain ns).tokens rest fun n ↦ n.parts = ns.map unescape := by
  intro c hc
  have hlength := hc.length_rest
  rw [List.length_append] at hlength
  have hplain : ∀ s ∈ ns.map fun n ↦ Segment.mk n [] (Span.point 0), s.args = [] := by
    intro s hs
    obtain ⟨n, -, rfl⟩ := List.mem_map.mp hs
    rfl
  refine Takes.mono (takes_nameWith (fun s hs a ha ↦ ?_) (fun s hs a ha ↦ ?_) (fun s hs ↦ ?_)
    (by simpa using hne) hrest ?_) (fun n ↦ parts_of_readAs_plain) c hc
  · rw [hplain s hs] at ha
    cases ha
  · rw [hplain s hs] at ha
    cases ha
  · rw [hplain s hs]
    exact Nat.zero_le _
  · have hcount := length_segments_le_tokens false (ns.map fun n ↦ .mk n [] (.point 0)) (.point 0)
    rw [plain] at hlength
    omega

/-- The end of a file closes a body, and is no brace. -/
theorem closes_endAt (offset : Nat) : Closes [endAt offset] :=
  ⟨fun _ ↦ ⟨[], _, rfl, rfl, fun _ h ↦ absurd h List.not_mem_nil⟩,
    fun _ ht ↦ .inr (Option.some.inj ht ▸ rfl)⟩

theorem closingBrace_of_endAt (offset : Nat) (bodyEnd : BodyEnd) :
    ∀ t ∈ [endAt offset].head?, t.kind = .rbrace → bodyEnd = .closingBrace := by
  intro t ht hkind
  rw [← Option.some.inj ht] at hkind
  cases hkind

section Body

variable {cs : List Char} (hbody : IsBody cs) {read : List Using × List Item} {c₀ : Cursor}
  (halone : namespaceBody .endOfFile
    (Cursor.ofTokens (tokensFrom 0 cs ++ [endAt (Text.byteLength cs)])) = ⟨.ok read, c₀, []⟩)
  (hread : Item.anyFileScoped read.2 = false)

include hbody halone hread

/-- What stands in a body that is a file stands in it at any place that offsets reach. -/
theorem exists_namespaceBody {offset : Nat} (hsize : offset + Text.byteLength cs ≤ Span.maxOffset)
    {rest : List Token} (hrest : Closes rest)
    (bodyEnd : BodyEnd) (hclose : ∀ t ∈ rest.head?, t.kind = .rbrace → bodyEnd = .closingBrace)
    (previous : Span) :
    ∃ s, namespaceBody bodyEnd ⟨previous, tokensFrom offset cs ++ rest⟩ =
      ⟨.ok (movedBody offset read), ⟨s, rest⟩, []⟩ := by
  have hkinds : ∀ t ∈ tokensFrom 0 cs, t.kind ≠ .eof := fun t ht ↦ kind_ne_eof_of_mem_locate ht
  have htokens : Token.Embeds offset rest (tokensFrom 0 cs ++ [endAt (Text.byteLength cs)])
      (tokensFrom offset cs ++ rest) := by
    rw [← Nat.zero_add offset, tokensFrom_moved (by rwa [Nat.zero_add]), Nat.zero_add]
    refine embeds_of_not_alias offset rest rfl _ hkinds ?_
    rw [map_bare_tokensFrom]
    exact hbody.noAlias
  have hembeds (s : Span) : Cursor.Embeds offset rest
      ⟨s, tokensFrom 0 cs ++ [endAt (Text.byteLength cs)]⟩
      ⟨s.moved offset, tokensFrom offset cs ++ rest⟩ := ⟨htokens, rfl, hrest⟩
  have hend : BodyEnd.Embeds rest .endOfFile bodyEnd := ⟨BodyEnd.noConfusion, hclose⟩
  obtain ⟨d, hok, hd⟩ := carriesIf_namespaceBody hend _ _ (hembeds _) read c₀ halone hread
  have heof : c₀.kind = .eof := by
    have hkind := kind_namespaceBody (hembeds (.point 0)).ended_left
    rwa [show (⟨.point 0, tokensFrom 0 cs ++ [endAt (Text.byteLength cs)]⟩ : Cursor) =
      Cursor.ofTokens _ from rfl, halone] at hkind
  have hafresh := afresh_namespaceBody (hembeds (.point 0)).ended_right bodyEnd
  obtain ⟨s, hok'⟩ := hafresh.exists_ok hok previous
  rw [hd.of_eof heof] at hok'
  exact ⟨s, hok'⟩

end Body

/-! ### Namespaces -/

theorem kind_of_map_bare {ts : List Token} {b : Bare} {bs : List Bare} (h : ts.map bare = b :: bs)
    (us : List Token) (s : Span) : (Cursor.mk s (ts ++ us)).kind = b.1 := by
  obtain ⟨t, ts, rfl, rfl, -⟩ := List.map_eq_cons_iff.mp h
  rfl

/-- The beginning of a namespace is read up to what stands behind its name. -/
theorem exists_namespaceHead (body : BodyEnd → Parser (List Using × List Item)) {ns : List String}
    (hne : ns ≠ []) {mark : Bare} {hs : List Token} (us : List Token)
    (hhs : hs.map bare = (.namespaceWord, "namespace") :: ((plain ns).tokens ++ [mark]))
    (hmark : EndsName [mark]) (previous : Span) :
    ∃ (start : Token) (n : Name) (s : Span) (t : Token), n.parts = ns.map unescape ∧
      t.bare = mark ∧ namespaceWith body ⟨previous, hs ++ us⟩ =
        (do
          if ← eat .semicolon then
            let (usings, items) ← body .endOfFile
            let span ← spanFrom start.span
            pure (.namespaceDecl ⟨n.parts, n.span, true, usings, span⟩ items)
          else
            let opened ← expect .lbrace
            let (usings, items) ← body .closingBrace
            closingBrace opened.span "namespace"
            let _ ← eat .semicolon
            let span ← spanFrom start.span
            pure (.namespaceDecl ⟨n.parts, n.span, false, usings, span⟩ items) :
          Parser Item) ⟨s, t :: us⟩ := by
  obtain ⟨start, hs, rfl, hstart, hhs⟩ := List.map_eq_cons_iff.mp hhs
  obtain ⟨names, marks, rfl, hnames, hmarks⟩ := List.map_eq_append_iff.mp hhs
  obtain ⟨t, rfl, ht⟩ := List.map_eq_singleton_iff.mp hmarks
  obtain ⟨start', s, hexpect, -⟩ := Takes.exists_ok
    (takes_expect (b := (.namespaceWord, "namespace")) Kind.noConfusion) (forward_expect _) [start]
    (names ++ t :: us) (by rw [List.map_singleton, hstart]) rfl previous
  obtain ⟨n, s', hname, hparts⟩ := Takes.exists_ok
    (takes_plainName hne (show EndsName (mark :: us.map bare) from hmark)) forward_name names
      (t :: us)
    hnames (by rw [List.map_cons, ht]) s
  refine ⟨start', n, s', t, hparts, ht, ?_⟩
  rw [show start :: (names ++ [t]) ++ us = [start] ++ (names ++ t :: us) by simp, namespaceWith,
    bind_of_ok hexpect, bind_of_ok hname]

section Namespace

variable {ns : List String} (hne : ns ≠ []) {hs us rest : List Token}
  {read : List Using × List Item}

include hne

/-- A namespace around a body that ends at a brace. -/
theorem exists_braced {close : Token}
    (hhs : hs.map bare =
      (.namespaceWord, "namespace") :: ((plain ns).tokens ++ [(.lbrace, "\x7b")]))
    (hbody : ∀ s, ∃ s', namespaceBody .closingBrace ⟨s, us⟩ =
      ⟨.ok read, ⟨s', close :: rest⟩, []⟩)
    (hclose : close.kind = .rbrace) (hrest : ∀ s, (Cursor.mk s rest).kind ≠ .semicolon)
    (previous : Span) :
    ∃ h s, namespaceWith namespaceBody ⟨previous, hs ++ us⟩ =
        ⟨.ok (.namespaceDecl h read.2), ⟨s, rest⟩, []⟩ ∧
      h.parts = ns.map unescape ∧ h.usings = read.1 := by
  obtain ⟨start, n, s, t, hparts, ht, heq⟩ := exists_namespaceHead namespaceBody hne us hhs
    ⟨by simp, by simp, by simp⟩ previous
  have hkind : t.kind = .lbrace := congrArg Prod.fst ht
  have hnext : Cursor.next ⟨s, t :: us⟩ = ⟨t.span, us⟩ :=
    Cursor.next_cons (by rw [hkind]; decide) s us
  have heat : eat .semicolon ⟨s, t :: us⟩ = ⟨.ok false, ⟨s, t :: us⟩, []⟩ :=
    if_neg (show t.kind ≠ .semicolon by rw [hkind]; decide)
  have hexpect : expect .lbrace ⟨s, t :: us⟩ = ⟨.ok t, ⟨t.span, us⟩, []⟩ := by
    rw [expect, if_pos (show Cursor.kind ⟨s, t :: us⟩ = .lbrace from hkind), hnext]
    rfl
  obtain ⟨s', hread⟩ := hbody t.span
  have hbrace : closingBrace t.span "namespace" ⟨s', close :: rest⟩ =
      ⟨.ok (), ⟨close.span, rest⟩, []⟩ := by
    rw [closingBrace, if_pos (show Cursor.kind ⟨s', close :: rest⟩ = .rbrace from hclose),
      show Cursor.next ⟨s', close :: rest⟩ = _ from
        Cursor.next_cons (by rw [hclose]; decide) s' rest]
  have heat' : eat .semicolon ⟨close.span, rest⟩ = ⟨.ok false, ⟨close.span, rest⟩, []⟩ :=
    if_neg (hrest _)
  obtain ⟨usings, items⟩ := read
  rw [heq, bind_of_ok heat, if_neg Bool.false_ne_true, bind_of_ok hexpect, bind_of_ok hread]
  dsimp only
  rw [bind_of_ok hbrace, bind_of_ok heat']
  exact ⟨_, _, rfl, hparts, rfl⟩

/-- A namespace that goes on up to the end of the file. -/
theorem exists_fileScoped
    (hhs : hs.map bare =
      (.namespaceWord, "namespace") :: ((plain ns).tokens ++ [(.semicolon, ";")]))
    (hbody : ∀ s, ∃ s', namespaceBody .endOfFile ⟨s, us⟩ = ⟨.ok read, ⟨s', rest⟩, []⟩)
    (previous : Span) :
    ∃ h s, namespaceWith namespaceBody ⟨previous, hs ++ us⟩ =
        ⟨.ok (.namespaceDecl h read.2), ⟨s, rest⟩, []⟩ ∧
      h.parts = ns.map unescape ∧ h.usings = read.1 := by
  obtain ⟨start, n, s, t, hparts, ht, heq⟩ := exists_namespaceHead namespaceBody hne us hhs
    ⟨by simp, by simp, by simp⟩ previous
  have hkind : t.kind = .semicolon := congrArg Prod.fst ht
  have heat : eat .semicolon ⟨s, t :: us⟩ = ⟨.ok true, ⟨t.span, us⟩, []⟩ := by
    rw [eat, if_pos (show Cursor.kind ⟨s, t :: us⟩ = .semicolon from hkind),
      show Cursor.next ⟨s, t :: us⟩ = _ from Cursor.next_cons (by rw [hkind]; decide) s us]
  obtain ⟨s', hread⟩ := hbody t.span
  rw [heq, bind_of_ok heat, if_pos rfl, bind_of_ok hread]
  exact ⟨_, _, rfl, hparts, rfl⟩

end Namespace

/-- A body in which nothing but a namespace stands. -/
theorem exists_namespaceBody_single (bodyEnd : BodyEnd) {ts rest : List Token} {i : Item}
    {s s' : Span} (hkind : (Cursor.mk s ts).kind = .namespaceWord)
    (hitem : namespaceWith namespaceBody ⟨s, ts⟩ = ⟨.ok i, ⟨s', rest⟩, []⟩)
    (hended : (Cursor.mk s ts).Ended)
    (hrest : (Cursor.mk s' rest).kind = .eof ∨
      ((Cursor.mk s' rest).kind = .rbrace ∧ bodyEnd = .closingBrace)) (previous : Span) :
    ∃ s'', namespaceBody bodyEnd ⟨previous, ts⟩ = ⟨.ok ([], [i]), ⟨s'', rest⟩, []⟩ := by
  have hword (w : String) : (Cursor.mk s ts).current.isWord w = false := by
    rw [Token.isWord, show (Cursor.mk s ts).current.kind = _ from hkind]
    rfl
  have hentry : entryWith namespaceBody ⟨s, ts⟩ = ⟨.ok (.item i), ⟨s', rest⟩, []⟩ := by
    rw [entryWith, look_bind, id, hkind, hword, hword, if_neg (by decide), if_neg (by simp),
      if_neg (by simp), if_pos rfl]
    exact bind_of_ok hitem
  have hstep : stepWith namespaceBody ⟨s, ts⟩ = ⟨.ok (.item i), ⟨s', rest⟩, []⟩ := by
    rw [stepWith, look_bind, id, hkind, if_neg (by decide), if_neg (by decide),
      attempt_bind_of_ok hentry]
    rfl
  have hended' : (Cursor.mk s' rest).Ended := by
    have hforward := (forward_stepWith forward_namespaceBody).ended hended
    rwa [hstep] at hforward
  have hstop : namespaceBody bodyEnd ⟨s', rest⟩ = ⟨.ok ([], []), ⟨s', rest⟩, []⟩ := by
    rw [namespaceBody_eq_entryLoop hended', entryLoop, look_bind, if_pos ?_]
    · rfl
    · rcases hrest with h | ⟨h, rfl⟩ <;> simp [h]
  have hok : namespaceBody bodyEnd ⟨s, ts⟩ = ⟨.ok ([], [i]), ⟨s', rest⟩, []⟩ := by
    rw [namespaceBody_eq_entryLoop hended, entryLoop, look_bind, hkind, if_neg (by simp),
      bind_of_ok hstep, bind_of_ok hstop]
    rfl
  exact (afresh_namespaceBody hended bodyEnd).exists_ok hok previous

end Parser

/-! ### Bodies in namespaces -/

/-- What is read of namespaces, one in the other, around something that is read. -/
inductive Item.Layered (read : List Using × List Item) :
    List (List String) → List Using × List Item → Prop
  | body : Layered read [] read
  | layer {ns : List String} {layers : List (List String)} {inner : List Using × List Item}
      {h : NamespaceHeader} (hparts : h.parts = ns.map unescape) (husings : h.usings = inner.1)
      (hinner : Layered read layers inner) :
      Layered read (ns :: layers) ([], [.namespaceDecl h inner.2])

/-- What stands in front of a text between the braces of namespaces. -/
def bracedFront (layers : List (List String)) : List Char :=
  layers.flatMap fun ns ↦ (namespaceFront " \x7b " ns).toList

namespace Token

variable {cs : List Char}

theorem Apart.spell_append (h : Apart cs) (r : List Char) :
    spell (cs ++ r) = spell cs ++ spell r := by
  rw [← map_bare_tokensFrom 0, h, List.map_append, map_bare_tokensFrom, map_bare_tokensFrom]

theorem apart_namespaceFront_brace {ns : List String} (hns : ∀ n ∈ ns, IsIdent n) :
    Apart (namespaceFront " \x7b " ns).toList :=
  apart_namespaceFront [' ', '\x7b'] rfl (by decide) (by decide) hns

theorem tokensFrom_close (offset : Nat) (r : List Char) :
    tokensFrom offset (" \x7d".toList ++ r) =
      ⟨.rbrace, .ofRange (offset + 1) (offset + 2), "\x7d"⟩ :: tokensFrom (offset + 2) r := by
  rw [show " \x7d".toList ++ r = ' ' :: '\x7d' :: r from rfl, tokensFrom_cons_skipped (by decide)]
  rfl

theorem apart_close : Apart " \x7d".toList := by
  intro offset r
  have hnone := tokensFrom_close offset []
  rw [List.append_nil] at hnone
  rw [tokensFrom_close, hnone]
  rfl

theorem kind_ne_eof_of_mem_tokensFrom {offset : Nat} {t : Token} (h : t ∈ tokensFrom offset cs) :
    t.kind ≠ .eof := by
  have hspelled : t.bare ∈ spell cs := by
    rw [← map_bare_tokensFrom offset]
    exact List.mem_map_of_mem h
  exact ne_eof_of_mem_spell hspelled

theorem ended_tokensFrom (offset : Nat) (cs : List Char) {rest : List Token}
    (hrest : ∀ s, (Cursor.mk s rest).Ended) (s : Span) :
    (Cursor.mk s (tokensFrom offset cs ++ rest)).Ended := by
  obtain ⟨front, e, heq, he, hfront⟩ := hrest s
  refine ⟨tokensFrom offset cs ++ front, e, ?_, he, List.forall_mem_append.mpr
    ⟨fun t ht ↦ kind_ne_eof_of_mem_tokensFrom ht, hfront⟩⟩
  rw [show rest = front ++ [e] from heq, List.append_assoc]

/-- A closing brace in front of what closes a body closes a body. -/
theorem Closes.cons {close : Token} {rest : List Token} (h : Closes rest)
    (hkind : close.kind = .rbrace) : Closes (close :: rest) := by
  refine ⟨fun s ↦ ?_, fun t ht ↦ .inl (Option.some.inj ht ▸ hkind)⟩
  obtain ⟨more, e, heq, he, hmore⟩ := h.ended s
  exact ⟨close :: more, e, congrArg (close :: ·) heq, he,
    List.forall_mem_cons.mpr ⟨by rw [hkind]; decide, hmore⟩⟩

theorem Closes.kind_ne_semicolon {rest : List Token} (h : Closes rest) (s : Span) :
    (Cursor.mk s rest).kind ≠ .semicolon := by
  cases rest with
  | nil => exact Kind.noConfusion
  | cons t rest => rcases h.head t rfl with hk | hk <;> exact fun hs ↦ by cases hk.symm.trans hs

section Layers

variable {text : String} {layers : List (List String)}
  (hlayers : ∀ ns ∈ layers, ns ≠ [] ∧ ∀ n ∈ ns, IsIdent n)

theorem toList_bracedText_cons (ns : List String) (layers : List (List String)) (text : String) :
    (bracedText (ns :: layers) text).toList = (namespaceFront " \x7b " ns).toList ++
      ((bracedText layers text).toList ++ " \x7d".toList) := by
  rw [bracedText, List.foldr_cons, String.toList_append, String.toList_append, List.append_assoc]
  rfl

theorem bracedFront_cons (ns : List String) (layers : List (List String)) :
    bracedFront (ns :: layers) = (namespaceFront " \x7b " ns).toList ++ bracedFront layers :=
  List.flatMap_cons

theorem toList_bracedText (layers : List (List String)) (text : String) :
    ∃ back, (bracedText layers text).toList = bracedFront layers ++ (text.toList ++ back) := by
  induction layers with
  | nil => exact ⟨[], (List.append_nil _).symm⟩
  | cons ns layers ih =>
    obtain ⟨back, hback⟩ := ih
    refine ⟨back ++ " \x7d".toList, ?_⟩
    rw [toList_bracedText_cons, hback, bracedFront_cons]
    simp only [List.append_assoc]

include hlayers

theorem IsBody.apart_bracedText (htext : IsBody text.toList) :
    Apart (bracedText layers text).toList := by
  induction layers with
  | nil => exact htext.apart
  | cons ns layers ih =>
    obtain ⟨hns, hmore⟩ := List.forall_mem_cons.mp hlayers
    rw [toList_bracedText_cons]
    exact (apart_namespaceFront_brace hns.2).append ((ih hmore).append apart_close)

/-- The tokens of a body in namespaces are those in front of the outermost brace, those of the body
in the other namespaces, and a closing brace. -/
theorem IsBody.tokensFrom_bracedText_cons (htext : IsBody text.toList) {ns : List String}
    (hns : ∀ n ∈ ns, IsIdent n) (offset : Nat) :
    ∃ close : Token, close.kind = .rbrace ∧
      tokensFrom offset (bracedText (ns :: layers) text).toList =
        tokensFrom offset (namespaceFront " \x7b " ns).toList ++
          (tokensFrom (offset + Text.byteLength (namespaceFront " \x7b " ns).toList)
            (bracedText layers text).toList ++ [close]) := by
  have hclose := fun offset ↦ tokensFrom_close offset []
  simp only [List.append_nil] at hclose
  rw [toList_bracedText_cons, apart_namespaceFront_brace hns, htext.apart_bracedText hlayers,
    hclose]
  exact ⟨_, rfl, rfl⟩

/-- There are no errors in namespaces around a body. -/
theorem IsBody.isClean_bracedText (htext : IsBody text.toList) :
    IsClean (spell (bracedText layers text).toList) := by
  induction layers with
  | nil => exact htext.clean
  | cons ns layers ih =>
    obtain ⟨hns, hmore⟩ := List.forall_mem_cons.mp hlayers
    have hmark : ∀ b ∈ spell " \x7b ".toList, b.1 ≠ .error := by decide
    have hclosing : ∀ b ∈ spell " \x7d".toList, b.1 ≠ .error := by decide
    rw [toList_bracedText_cons, (apart_namespaceFront_brace hns.2).spell_append,
      (htext.apart_bracedText hmore).spell_append,
      spell_namespaceFront _ (by decide) hns.1 hns.2, isClean_append, isClean_append, isClean_cons,
      isClean_append]
    exact ⟨⟨Kind.noConfusion, isClean_plain ns, hmark⟩, ih hmore, hclosing⟩

end Layers

end Token

namespace Parser

section Body

variable {text : String} (hbody : IsBody text.toList) {read : List Using × List Item} {c₀ : Cursor}
  (halone : namespaceBody .endOfFile
    (Cursor.ofTokens (tokensFrom 0 text.toList ++ [endAt (Text.byteLength text.toList)])) =
      ⟨.ok read, c₀, []⟩)
  (hread : Item.anyFileScoped read.2 = false)

include hbody halone hread

/-- What stands in namespaces around a body is what stands in the body, in these namespaces. -/
theorem exists_bracedText {layers : List (List String)}
    (hlayers : ∀ ns ∈ layers, ns ≠ [] ∧ ∀ n ∈ ns, IsIdent n) (offset : Nat)
    (hsize : offset + Text.byteLength (bracedText layers text).toList ≤ Span.maxOffset)
    {rest : List Token} (hrest : Closes rest) (bodyEnd : BodyEnd)
    (hclose : ∀ t ∈ rest.head?, t.kind = .rbrace → bodyEnd = .closingBrace) :
    ∃ read', Item.Layered (movedBody (offset + Text.byteLength (bracedFront layers)) read) layers
        read' ∧
      ∀ previous, ∃ s, namespaceBody bodyEnd
          ⟨previous, tokensFrom offset (bracedText layers text).toList ++ rest⟩ =
        ⟨.ok read', ⟨s, rest⟩, []⟩ := by
  induction layers generalizing offset rest bodyEnd with
  | nil => exact ⟨_, .body, exists_namespaceBody hbody halone hread hsize hrest bodyEnd hclose⟩
  | cons ns layers ih =>
    obtain ⟨hns, hmore⟩ := List.forall_mem_cons.mp hlayers
    obtain ⟨hne, hidents⟩ := hns
    obtain ⟨close, hkind, htokens⟩ := hbody.tokensFrom_bracedText_cons hmore hidents offset
    have hcloses : Closes (close :: rest) := hrest.cons hkind
    rw [htokens, List.append_assoc, List.append_assoc, List.singleton_append]
    rw [toList_bracedText_cons, Text.byteLength_append, Text.byteLength_append] at hsize
    obtain ⟨read', hnested, hok⟩ := ih hmore
      (offset + Text.byteLength (namespaceFront " \x7b " ns).toList)
        (by omega) hcloses .closingBrace
      fun _ _ _ ↦ rfl
    have hspell : (tokensFrom offset (namespaceFront " \x7b " ns).toList).map bare =
        (.namespaceWord, "namespace") :: ((plain ns).tokens ++ [(.lbrace, "\x7b")]) := by
      rw [map_bare_tokensFrom, spell_namespaceFront _ (by decide) hne hidents]
      rfl
    obtain ⟨h, s, hitem, hparts, husings⟩ := exists_braced hne hspell hok hkind
      hrest.kind_ne_semicolon (.point 0)
    refine ⟨_, .layer hparts husings ?_, exists_namespaceBody_single _ ?_ hitem
      (ended_tokensFrom _ _ (ended_tokensFrom _ _ hcloses.ended) _) ?_⟩
    · rw [bracedFront_cons, Text.byteLength_append, ← Nat.add_assoc]
      exact hnested
    · exact kind_of_map_bare hspell _ _
    · cases rest with
      | nil => exact .inl rfl
      | cons t rest =>
        rcases hrest.head t rfl with h | h
        · exact .inr ⟨h, hclose t rfl h⟩
        · exact .inl h

end Body

end Parser

/-! ### Files -/

namespace Parsed

variable {path source : String}

theorem ok_of_diagnostics (h : (ofSource path source).diagnostics = []) :
    IsClean (spell source.toList) ∧ ∃ c,
      namespaceBody .endOfFile (Cursor.ofTokens (Token.ofSource source)) =
        ⟨.ok ((ofSource path source).file.usings, (ofSource path source).file.items), c, []⟩ := by
  have hnone : ((Token.ofSource source).filter (·.kind = .error)).map unrecognized ++
      (ofTokens ((Token.ofSource source).filter (·.kind ≠ .error))).reported = [] := by
    have hempty := (List.mergeSort_perm _ _).symm.trans (List.Perm.of_eq h)
    exact List.map_eq_nil_iff.mp hempty.eq_nil
  obtain ⟨hlexical, hreported⟩ := List.append_eq_nil_iff.mp hnone
  have hall : ∀ t ∈ Token.ofSource source, t.kind ≠ .error := by
    simpa [List.filter_eq_nil_iff] using List.map_eq_nil_iff.mp hlexical
  have htokens : (Token.ofSource source).filter (·.kind ≠ .error) = Token.ofSource source := by
    simpa [List.filter_eq_self] using hall
  refine ⟨fun b hb ↦ ?_, ?_⟩
  · rw [← map_bare_tokensFrom 0] at hb
    obtain ⟨t, ht, rfl⟩ := List.mem_map.mp hb
    exact hall t (List.mem_append_left _ ht)
  · rw [htokens] at hreported
    obtain ⟨read, hread⟩ :=
      succeeds_namespaceBody .endOfFile (Cursor.ofTokens (Token.ofSource source))
    have hfile : (ofSource path source).file = ⟨path, source, read.1, read.2⟩ := by
      rw [ofSource, ofLexed, htokens, ofTokens, hread]
      rfl
    rw [hfile]
    refine ⟨(namespaceBody .endOfFile (Cursor.ofTokens (Token.ofSource source))).cursor, ?_⟩
    rw [show (read.1, read.2) = read from rfl, ← hread, ← hreported]
    rfl

/-- A text that stands on its own as a file and may stand in a namespace, however that is written:
it is read without a report, ends at the end of a line, and neither a file-scoped namespace nor a
directive for an external alias is in it. -/
structure CanBeBody (path text : String) : Prop where
  quiet : (ofSource path text).diagnostics = []
  ends : ∃ front, text = front ++ "\n"
  noFileScoped : Item.anyFileScoped (ofSource path text).file.items = false
  noAlias : ∀ front back,
    spell text.toList ≠ front ++ (.ident, "extern") :: (.ident, "alias") :: back

/-- A file in which a text stands in namespaces, one in the other. It is read without a report, to
what the text is read to alone, at the place where the text stands. -/
structure Wraps (path text : String) (layers : List (List String)) (source : String) : Prop where
  exists_read : ∃ front back read, source.toList = front ++ (text.toList ++ back) ∧
    Item.Layered (movedBody (Text.byteLength front)
      ((ofSource path text).file.usings, (ofSource path text).file.items)) layers read ∧
    ofSource path source = ⟨⟨path, source, read.1, read.2⟩, []⟩

namespace CanBeBody

variable {text : String} (h : CanBeBody path text)

include h

theorem isBody : IsBody text.toList where
  ends := by
    obtain ⟨front, rfl⟩ := h.ends
    exact ⟨front.toList, String.toList_append⟩
  clean := (ok_of_diagnostics h.quiet).1
  noAlias := h.noAlias

/-- The text between the braces of namespaces. -/
theorem wraps_bracedText {layers : List (List String)}
    (hlayers : ∀ ns ∈ layers, ns ≠ [] ∧ ∀ n ∈ ns, IsIdent n)
    (hsize : Text.byteLength (bracedText layers text).toList ≤ Span.maxOffset) :
    Wraps path text layers (bracedText layers text) := by
  obtain ⟨-, c₀, halone⟩ := ok_of_diagnostics h.quiet
  obtain ⟨read, hnested, hok⟩ := exists_bracedText h.isBody halone h.noFileScoped hlayers 0
    (by rwa [Nat.zero_add]) (closes_endAt (Text.byteLength (bracedText layers text).toList))
      .endOfFile
    (closingBrace_of_endAt _ _)
  obtain ⟨s, hok⟩ := hok (.point 0)
  obtain ⟨back, hback⟩ := toList_bracedText layers text
  rw [Nat.zero_add] at hnested
  exact ⟨_, back, read, hback, hnested, ofSource_of_ok (h.isBody.isClean_bracedText hlayers) hok⟩

/-- The text behind the name of a namespace that goes on up to the end of the file. -/
theorem wraps_fileScopedText {ns : List String} (hne : ns ≠ []) (hns : ∀ n ∈ ns, IsIdent n)
    (hsize : Text.byteLength (fileScopedText ns text).toList ≤ Span.maxOffset) :
    Wraps path text [ns] (fileScopedText ns text) := by
  obtain ⟨hclean, c₀, halone⟩ := ok_of_diagnostics h.quiet
  have happart : Token.Apart (namespaceFront "; " ns).toList :=
    apart_namespaceFront [';'] rfl (by decide) (by decide) hns
  have hmark : ∀ b ∈ spell "; ".toList, b.1 ≠ .error := by decide
  have hspell := spell_namespaceFront "; " (by decide) hne hns
  generalize hfront : (namespaceFront "; " ns).toList = front at happart hspell
  have htext : (fileScopedText ns text).toList = front ++ text.toList := by
    rw [fileScopedText, String.toList_append, hfront]
  have hcloses := closes_endAt (Text.byteLength (fileScopedText ns text).toList)
  have hbody := exists_namespaceBody h.isBody halone h.noFileScoped
    (by rwa [← Text.byteLength_append, ← htext]) hcloses .endOfFile (closingBrace_of_endAt _ _)
  have htokens : (tokensFrom 0 front).map bare =
      (.namespaceWord, "namespace") :: ((plain ns).tokens ++ [(.semicolon, ";")]) := by
    rw [map_bare_tokensFrom, hspell]
    rfl
  obtain ⟨header, s, hitem, hparts, husings⟩ := exists_fileScoped hne htokens hbody (.point 0)
  have hsource : Token.ofSource (fileScopedText ns text) = tokensFrom 0 front ++
      (tokensFrom (Text.byteLength front) text.toList ++
        [endAt (Text.byteLength (fileScopedText ns text).toList)]) := by
    rw [ofSource_eq, htext, happart, ← htext, Nat.zero_add, List.append_assoc]
  obtain ⟨s', hok⟩ := exists_namespaceBody_single .endOfFile (kind_of_map_bare htokens _ _) hitem
    (ended_tokensFrom _ _ (ended_tokensFrom _ _ hcloses.ended) _) (.inl rfl) (.point 0)
  refine ⟨front, [], _, by rw [htext, List.append_nil], .layer hparts husings .body,
    ofSource_of_ok ?_ (hsource ▸ hok)⟩
  rw [htext, happart.spell_append, hspell, isClean_append, isClean_cons, isClean_append]
  exact ⟨⟨Kind.noConfusion, isClean_plain ns, hmark⟩, hclean⟩

end CanBeBody

end Parsed

end Companion
