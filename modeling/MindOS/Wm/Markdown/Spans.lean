import MindOS.Wm.Markdown.Inline
import Mathlib.Data.List.Chain

/-!
# The spans of a text

The spans are the pieces that the lines of the text are drawn as, with neighbours of one style
merged. They have no empty span and no two neighbours of one style, and the text in them is the
text of the lines without the markers that were matched.
-/

namespace MindOS.Wm.Markdown

open Text

/-- Every character with the style it is drawn in. -/
def styled (spans : List Span) : List (Char × Style) :=
  spans.flatMap fun span => span.text.map (·, span.style)

/-- The text of the spans. -/
def textOf (spans : List Span) : Text := spans.flatMap Span.text

/-- No span is empty, and neighbours differ in style. -/
structure Neat (spans : List Span) : Prop where
  nonempty : ∀ span ∈ spans, span.text ≠ []
  differ : spans.IsChain fun span next => span.style ≠ next.style

/-! ## Lines -/

/-- The blanks at the front of a line. -/
def indent (raw : Text) : Text := (trimEnd raw).takeWhile isWhitespace

/-- A line without the blanks around it. -/
def body (raw : Text) : Text := trimStart (trimEnd raw)

def IsFence (body : Text) : Prop := "```" <+: body ∨ "~~~" <+: body

/-- Up to six hashes and a blank before the title. -/
def IsHeading (body title : Text) : Prop :=
  ∃ hashes : Text, body = hashes ++ ' ' :: title ∧ (∀ c ∈ hashes, c = '#') ∧
    1 ≤ hashes.length ∧ hashes.length ≤ 6

def IsRule (body : Text) : Prop := 3 ≤ len body ∧ ∀ c ∈ body, c = '-' ∨ c = '*' ∨ c = '_'

/-- A line without the mark of a quotation. -/
inductive Unquoted : Text → Text → Prop where
  | blank (inner : Text) : Unquoted ('>' :: ' ' :: inner) inner
  | tight {inner : Text} (h : inner.head? ≠ some ' ') : Unquoted ('>' :: inner) inner
  | none {body : Text} (h : body.head? ≠ some '>') : Unquoted body body

/-- The pieces that a line is drawn as, and whether a fence is open after it. -/
inductive ReadsLine (alnum : Char → Bool) : Bool → Text → Bool → List Span → Prop where
  | fence {fenced : Bool} {raw : Text} (h : IsFence (body raw)) :
      ReadsLine alnum fenced raw (!fenced) []
  | code {raw : Text} (h : ¬IsFence (body raw)) :
      ReadsLine alnum true raw true [⟨trimEnd raw, .code⟩]
  | heading {raw title : Text} {pieces : List Span} (h : ¬IsFence (body raw))
      (htitle : IsHeading (body raw) title) (hreads : Reads alnum .strong [] (trim title) pieces) :
      ReadsLine alnum false raw false pieces
  | rule {raw : Text} (h : ¬IsFence (body raw)) (htitle : ∀ title, ¬IsHeading (body raw) title)
      (hrule : IsRule (body raw)) : ReadsLine alnum false raw false []
  | bullet {raw inner bullet item : Text} {pieces : List Span} (h : ¬IsFence (body raw))
      (htitle : ∀ title, ¬IsHeading (body raw) title) (hrule : ¬IsRule (body raw))
      (hquote : Unquoted (body raw) inner) (hbullet : bullet ∈ bullets)
      (hitem : inner = bullet ++ item) (hreads : Reads alnum .normal [] item pieces) :
      ReadsLine alnum false raw false (⟨indent raw ++ "• ", .normal⟩ :: pieces)
  | text {raw inner : Text} {pieces : List Span} (h : ¬IsFence (body raw))
      (htitle : ∀ title, ¬IsHeading (body raw) title) (hrule : ¬IsRule (body raw))
      (hquote : Unquoted (body raw) inner) (hbullet : ∀ bullet ∈ bullets, ¬bullet <+: inner)
      (hreads : Reads alnum .normal [] inner pieces) :
      ReadsLine alnum false raw false (⟨indent raw, .normal⟩ :: pieces)

/-- The pieces that lines are drawn as, with a newline between two of them. -/
inductive ReadsLines (alnum : Char → Bool) : Bool → List Text → List Span → Prop where
  | last {fenced after : Bool} {raw : Text} {pieces : List Span}
      (h : ReadsLine alnum fenced raw after pieces) : ReadsLines alnum fenced [raw] pieces
  | next {fenced after : Bool} {raw : Text} {lines : List Text} {pieces rest : List Span}
      (h : ReadsLine alnum fenced raw after pieces) (hrest : ReadsLines alnum after lines rest) :
      ReadsLines alnum fenced (raw :: lines) (pieces ++ ⟨['\n'], .normal⟩ :: rest)

/-! ## Pushing -/

/-- Push pieces one after the other. -/
def pushAll (out pieces : List Span) : List Span :=
  pieces.foldl (fun out piece => push out piece.text piece.style) out

variable {alnum : Char → Bool} {out pieces : List Span} {style : Style} {t u : Text}

@[simp] theorem push_nil (out : List Span) (style : Style) : push out [] style = out := rfl

@[simp] theorem pushAll_nil (out : List Span) : pushAll out [] = out := rfl

@[simp] theorem pushAll_cons (out : List Span) (piece : Span) (pieces : List Span) :
    pushAll out (piece :: pieces) = pushAll (push out piece.text piece.style) pieces := rfl

theorem pushAll_append (out pieces rest : List Span) :
    pushAll out (pieces ++ rest) = pushAll (pushAll out pieces) rest := List.foldl_append

theorem push_cases (out : List Span) (style : Style) : ∃ front t₀,
    (∀ t, t ≠ [] → push out t style = front ++ [⟨t₀ ++ t, style⟩]) ∧
      ((t₀ = [] ∧ front = out ∧ ∀ last ∈ out.getLast?, last.style ≠ style) ∨
        out = front ++ [⟨t₀, style⟩]) := by
  obtain rfl | ⟨front, last, rfl⟩ := List.eq_nil_or_concat' out
  · exact ⟨[], [], fun t ht => if_neg ht, .inl ⟨rfl, rfl, by simp⟩⟩
  · by_cases hstyle : last.style = style
    · refine ⟨front, last.text, fun t ht => ?_, .inr (by rw [← hstyle])⟩
      rw [push, if_neg ht, List.getLast?_concat]
      simp only [hstyle, if_true, List.dropLast_concat]
    · refine ⟨front ++ [last], [], fun t ht => ?_, .inl ⟨rfl, rfl, by simpa using hstyle⟩⟩
      rw [push, if_neg ht, List.getLast?_concat]
      simp only [hstyle, if_false, List.nil_append]

theorem push_push (out : List Span) (t u : Text) (style : Style) :
    push (push out t style) u style = push out (t ++ u) style := by
  by_cases ht : t = []
  · rw [ht, push_nil, List.nil_append]
  by_cases hu : u = []
  · rw [hu, push_nil, List.append_nil]
  obtain ⟨front, t₀, hpush, -⟩ := push_cases out style
  rw [hpush t ht, hpush (t ++ u) (List.append_ne_nil_of_left_ne_nil ht u), push, if_neg hu,
    List.getLast?_concat]
  simp only [if_true, List.dropLast_concat, List.append_assoc]

@[simp] theorem styled_append (l m : List Span) : styled (l ++ m) = styled l ++ styled m :=
  List.flatMap_append

theorem styled_push (out : List Span) (t : Text) (style : Style) :
    styled (push out t style) = styled out ++ t.map (·, style) := by
  by_cases ht : t = []
  · rw [ht, push_nil, List.map_nil, List.append_nil]
  obtain ⟨front, t₀, hpush, ⟨rfl, rfl, -⟩ | hout⟩ := push_cases out style
  · rw [hpush t ht, styled_append]
    simp [styled]
  · rw [hpush t ht, hout, styled_append, styled_append]
    simp [styled]

theorem styled_pushAll (out pieces : List Span) :
    styled (pushAll out pieces) = styled out ++ styled pieces := by
  induction pieces generalizing out with
  | nil => simp [styled]
  | cons piece pieces ih =>
      rw [pushAll_cons, ih, styled_push, List.append_assoc]
      rfl

theorem map_fst_styled (spans : List Span) : (styled spans).map Prod.fst = textOf spans := by
  rw [styled, List.map_flatMap, textOf]
  exact congrArg (spans.flatMap ·) (funext fun span => by
    rw [List.map_map]
    exact List.map_id span.text)

theorem Neat.push (h : Neat out) (t : Text) (style : Style) : Neat (push out t style) := by
  by_cases ht : t = []
  · rwa [ht, push_nil]
  obtain ⟨front, t₀, hpush, ⟨rfl, rfl, hdiffer⟩ | rfl⟩ := push_cases out style
  · rw [hpush t ht, List.nil_append]
    refine ⟨fun span hmem => ?_, ?_⟩
    · obtain hmem | hmem := List.mem_append.mp hmem
      · exact h.nonempty span hmem
      · obtain rfl := List.mem_singleton.mp hmem
        exact ht
    · refine List.isChain_append.mpr ⟨h.differ, .singleton _, fun last hlast span hspan => ?_⟩
      obtain rfl := Option.some.inj hspan
      exact hdiffer last hlast
  · rw [hpush t ht]
    have hchain := List.isChain_append.mp h.differ
    refine ⟨fun span hmem => ?_, ?_⟩
    · obtain hmem | hmem := List.mem_append.mp hmem
      · exact h.nonempty span (List.mem_append_left _ hmem)
      · obtain rfl := List.mem_singleton.mp hmem
        exact List.append_ne_nil_of_right_ne_nil _ ht
    · refine List.isChain_append.mpr ⟨hchain.1, .singleton _, fun last hlast span hspan => ?_⟩
      obtain rfl := Option.some.inj hspan
      exact hchain.2.2 last hlast ⟨t₀, style⟩ rfl

theorem Neat.pushAll (h : Neat out) (pieces : List Span) : Neat (pushAll out pieces) := by
  induction pieces generalizing out with
  | nil => exact h
  | cons piece pieces ih => exact ih (h.push piece.text piece.style)

/-! ## Inside a line -/

theorem Next.reads {before rest taken back : Text} {token : Token}
    (h : Next alnum before rest token taken back) : rest = taken ++ back ∧ taken ≠ [] ∧
      ∀ label url, token = .link label url → len label < len taken := by
  cases h with
  | escaped c back => exact ⟨rfl, by simp, nofun⟩
  | plain hescape hmarked hlinked => exact ⟨rfl, by simp, nofun⟩
  | marked h =>
      refine ⟨by rw [h.reads]; simp only [List.append_assoc], ?_, nofun⟩
      have hne := h.nonempty
      simp [hne]
  | link h =>
      refine ⟨by rw [h.reads]; simp, by simp, ?_⟩
      rintro label url ⟨⟩
      have hpos := Char.utf8Size_pos '['
      rw [len_cons, len_append]
      omega

theorem inlineFrom_spec {fuel : Nat} (before : Text) {rest : Text} (hfuel : len rest < fuel)
    (base : Style) (plain : Text) (out : List Span) :
    ∃ pieces, Reads alnum base before rest pieces ∧
      inlineFrom alnum fuel (before ++ rest) base (len before) plain out =
        some (pushAll (push out plain base) pieces) := by
  induction fuel generalizing before rest plain out with
  | zero => exact absurd hfuel (Nat.not_lt_zero _)
  | succ fuel ih =>
      cases rest with
      | nil => exact ⟨[], .done before, by rw [inlineFrom, List.append_nil, byte_end]; rfl⟩
      | cons c t =>
          have hpos := c.utf8Size_pos
          obtain ⟨b, hb⟩ : ∃ b, (bytes (before ++ c :: t))[len before]? = some b := by
            refine ⟨_, List.getElem?_eq_getElem ?_⟩
            rw [length_bytes, len_append, len_cons]
            omega
          obtain ⟨token, taken, back, hnext, hlook⟩ := look_spec alnum before hb
          obtain ⟨hrest, htaken, hlabel⟩ := hnext.reads
          have hback : len back < fuel := by
            have hlt := len_lt (t := []) htaken
            rw [hrest, len_append] at hfuel
            rw [List.nil_append, len_nil] at hlt
            omega
          have hline : before ++ c :: t = before ++ taken ++ back := by
            rw [hrest, List.append_assoc]
          rw [inlineFrom, hb]
          simp only [hlook, Option.bind_eq_bind, Option.bind_some]
          rw [hline]
          cases token with
          | char ch =>
              obtain ⟨pieces, hreads, heq⟩ := ih (before ++ taken) hback (plain ++ [ch]) out
              refine ⟨_, .char hnext hreads, heq.trans ?_⟩
              rw [pushAll_cons, push_push]
          | marked inner style =>
              obtain ⟨pieces, hreads, heq⟩ := ih (before ++ taken) hback []
                (push (push out plain base) inner (weight base style))
              exact ⟨_, .marked hnext hreads, heq⟩
          | link label url =>
              have hshort : len label < fuel := by
                have hlt := hlabel label url rfl
                rw [hrest, len_append] at hfuel
                omega
              obtain ⟨inside, hinside, hout⟩ := ih [] hshort [] (push out plain base)
              rw [List.nil_append, len_nil, push_nil] at hout
              obtain ⟨pieces, hreads, heq⟩ := ih (before ++ taken) hback []
                (pushAll (pushAll (push out plain base) inside) (address base label url))
              refine ⟨_, .link hnext hinside hreads, ?_⟩
              rw [pushAll_append, pushAll_append]
              simp only [hout, Option.bind_some]
              refine Eq.trans ?_ heq
              rw [address]
              split <;> rfl

theorem inline_spec (alnum : Char → Bool) (line : Text) (base : Style) (out : List Span) : ∃ pieces,
    Reads alnum base [] line pieces ∧ inline alnum line base out = some (pushAll out pieces) :=
  inlineFrom_spec [] (Nat.lt_succ_self (len line)) base [] out

/-! ## The lines of a text -/

theorem heading_spec (line : Text) : ∃ found, heading line = some found ∧
    ((found = none ∧ ∀ title, ¬IsHeading line title) ∨
      ∃ title, IsHeading line title ∧ found = some (trim title)) := by
  have hcut := List.takeWhile_append_dropWhile (p := (· == '#')) (l := line)
  have hhash : ∀ c ∈ line.takeWhile (· == '#'), c = '#' := by
    intro c hc
    simpa using List.mem_takeWhile_imp hc
  -- The hashes of a heading are all that the line begins with.
  have hall : ∀ {hashes title : Text}, line = hashes ++ ' ' :: title → (∀ c ∈ hashes, c = '#') →
      line.takeWhile (· == '#') = hashes ∧ line.dropWhile (· == '#') = ' ' :: title := by
    rintro hashes title rfl hmem
    have hpos : ∀ c ∈ hashes, (c == '#') = true := fun c hc => beq_iff_eq.mpr (hmem c hc)
    exact ⟨by rw [List.takeWhile_append_of_pos hpos]; simp,
      by rw [List.dropWhile_append_of_pos hpos]; rfl⟩
  have hlen : (line.takeWhile (· == '#')).length = len (line.takeWhile (· == '#')) :=
    (len_of_ascii fun c hc => by rw [hhash c hc]; decide).symm
  have hdrop : dropBytes (line.takeWhile (· == '#')).length line =
      some (line.dropWhile (· == '#')) := by
    have h := dropBytes_append (line.takeWhile (· == '#')) (line.dropWhile (· == '#'))
    rwa [hcut, ← hlen] at h
  rw [heading, hdrop]
  split
  case isTrue hcount =>
    cases hstrip : stripPrefix (line.dropWhile (· == '#')) " " with
    | some title =>
        refine ⟨_, rfl, .inr ⟨title, ⟨_, ?_, hhash, hcount⟩, by rw [hstrip]; rfl⟩⟩
        rw [stripPrefix_eq_some.mp hstrip] at hcut
        exact hcut.symm
    | none =>
        refine ⟨_, rfl, .inl ⟨by rw [hstrip]; rfl, ?_⟩⟩
        rintro title ⟨hashes, hline, hmem, -⟩
        exact stripPrefix_eq_none.mp hstrip ⟨title, (hall hline hmem).2.symm⟩
  case isFalse hcount =>
    refine ⟨none, rfl, .inl ⟨rfl, ?_⟩⟩
    rintro title ⟨hashes, hline, hmem, hlow, hhigh⟩
    rw [(hall hline hmem).1] at hcount
    exact hcount ⟨hlow, hhigh⟩

theorem unquoted_spec (line : Text) :
    Unquoted line (((stripPrefix line "> ").or (stripPrefix line ">")).getD line) := by
  cases hblank : stripPrefix line "> " with
  | some inner =>
      obtain rfl := stripPrefix_eq_some.mp hblank
      exact .blank inner
  | none =>
      rw [Option.none_or]
      cases hquote : stripPrefix line ">" with
      | some inner =>
          obtain rfl := stripPrefix_eq_some.mp hquote
          refine .tight fun hhead => stripPrefix_eq_none.mp hblank ?_
          obtain ⟨rest, rfl⟩ := List.head?_eq_some_iff.mp hhead
          exact ⟨rest, rfl⟩
      | none =>
          refine .none fun hhead => stripPrefix_eq_none.mp hquote ?_
          obtain ⟨rest, rfl⟩ := List.head?_eq_some_iff.mp hhead
          exact ⟨rest, rfl⟩

theorem spanLine_spec (alnum : Char → Bool) (fenced : Bool) (raw : Text) (out : List Span) :
    ∃ after pieces,
    ReadsLine alnum fenced raw after pieces ∧
      spanLine alnum fenced raw out = some (pushAll out pieces, after) := by
  have hcut : indent raw ++ body raw = trimEnd raw := List.takeWhile_append_dropWhile
  have hindent : takeBytes (len (trimEnd raw) - len (body raw)) (trimEnd raw) =
      some (indent raw) := by
    rw [← hcut, len_append, Nat.add_sub_cancel, takeBytes_append]
  rw [spanLine]
  split
  case isTrue hfence =>
    exact ⟨_, [], .fence (hfence.imp startsWith_iff.mp startsWith_iff.mp), rfl⟩
  case isFalse hfence =>
  have hfence : ¬IsFence (body raw) := fun h =>
    hfence (h.imp startsWith_iff.mpr startsWith_iff.mpr)
  cases fenced with
  | true => exact ⟨_, _, .code hfence, rfl⟩
  | false =>
    obtain ⟨found, hfound, hcases⟩ := heading_spec (body raw)
    rw [← body, hfound, if_neg Bool.false_ne_true, hindent, Option.bind_eq_bind, Option.bind_some]
    obtain ⟨rfl, htitle⟩ | ⟨title, htitle, rfl⟩ := hcases
    · -- No heading.
      dsimp only
      split
      case isTrue hrule =>
        refine ⟨_, [], .rule hfence htitle ⟨hrule.1, fun c hc => ?_⟩, rfl⟩
        have h := List.all_eq_true.mp hrule.2 c hc
        simpa [or_assoc] using h
      case isFalse hrule =>
        have hrule : ¬IsRule (body raw) := by
          rintro ⟨hlen, hall⟩
          refine hrule ⟨hlen, List.all_eq_true.mpr fun c hc => ?_⟩
          simpa [or_assoc] using hall c hc
        have hquote := unquoted_spec (body raw)
        generalize ((stripPrefix (body raw) "> ").or (stripPrefix (body raw) ">")).getD
          (body raw) = inner at hquote ⊢
        rw [Option.bind_eq_bind, Option.bind_some]
        cases hfind : bullets.findSome? (stripPrefix inner) with
        | none =>
          obtain ⟨pieces, hreads, hinline⟩ := inline_spec alnum inner .normal
            (push out (indent raw) .normal)
          refine ⟨_, _, .text hfence htitle hrule hquote ?_ hreads, ?_⟩
          · intro bullet hbullet hprefix
            have hstrip := List.findSome?_eq_none_iff.mp hfind bullet hbullet
            obtain ⟨item, rfl⟩ := hprefix
            rw [stripPrefix_append] at hstrip
            cases hstrip
          · simp only [hinline]
            rfl
        | some item =>
          obtain ⟨bullet, hbullet, hstrip⟩ := List.exists_of_findSome?_eq_some hfind
          obtain ⟨pieces, hreads, hinline⟩ := inline_spec alnum item .normal
            (push out (indent raw ++ "• ") .normal)
          refine ⟨_, _, .bullet hfence htitle hrule hquote hbullet
            (stripPrefix_eq_some.mp hstrip) hreads, ?_⟩
          simp only [hinline]
          rfl
    · obtain ⟨pieces, hreads, hinline⟩ := inline_spec alnum (trim title) .strong out
      refine ⟨_, _, .heading hfence htitle hreads, ?_⟩
      simp only [hinline]
      rfl

theorem lines_spec (alnum : Char → Bool) (fenced : Bool) (raw : Text) (rest : List Text)
    (out : List Span) : ∃ pieces, ReadsLines alnum fenced (raw :: rest) pieces ∧
      (spanLine alnum fenced raw out).bind (fun (out, fenced) => spanLines alnum fenced rest out) =
        some (pushAll out pieces) := by
  induction rest generalizing fenced raw out with
  | nil =>
      obtain ⟨after, pieces, hline, heq⟩ := spanLine_spec alnum fenced raw out
      exact ⟨pieces, .last hline, by rw [heq]; rfl⟩
  | cons next rest ih =>
      obtain ⟨after, pieces, hline, heq⟩ := spanLine_spec alnum fenced raw out
      obtain ⟨behind, hrest, hbehind⟩ := ih after next (push (pushAll out pieces) "\n" .normal)
      refine ⟨_, .next hline hrest, ?_⟩
      rw [heq, Option.bind_some, pushAll_append]
      exact hbehind

theorem spans_spec (alnum : Char → Bool) (text : Text) : ∃ pieces,
    ReadsLines alnum false (text.splitOn '\n') pieces ∧
      spans alnum text = some (pushAll [] pieces) := by
  obtain ⟨raw, rest, hlines⟩ := List.exists_cons_of_ne_nil (List.splitOn_ne_nil '\n' text)
  rw [spans, hlines]
  exact lines_spec alnum false raw rest []

/-! ## Texts without markers -/

/-- A line in which nothing marks: no character that can do so inside a line, and nothing at the
front of it. -/
structure Unmarked (raw : Text) : Prop where
  inside : ∀ c ∈ raw, c ∉ "\\`*_[".toList
  fence : ¬IsFence (body raw)
  title : ∀ title, ¬IsHeading (body raw) title
  rule : ¬IsRule (body raw)
  quote : (body raw).head? ≠ some '>'
  bullet : ∀ bullet ∈ bullets, ¬bullet <+: body raw

theorem Unquoted.eq_body {line inner : Text} (h : Unquoted line inner)
    (hquote : line.head? ≠ some '>') :
    inner = line := by
  cases h with
  | blank inner => exact absurd rfl hquote
  | tight h => exact absurd rfl hquote
  | none h => rfl

theorem textOf_append (l m : List Span) : textOf (l ++ m) = textOf l ++ textOf m :=
  List.flatMap_append

theorem textOf_cons (span : Span) (spans : List Span) :
    textOf (span :: spans) = span.text ++ textOf spans := rfl

theorem Reads.unmarked {base : Style} {before rest : Text} {pieces : List Span}
    (h : Reads alnum base before rest pieces) (hrest : ∀ c ∈ rest, c ∉ "\\`*_[".toList) :
    textOf pieces = rest := by
  induction h with
  | done before => rfl
  | char h hback ih =>
      cases h with
      | escaped c back => exact absurd (hrest '\\' List.mem_cons_self) (by decide)
      | plain hescape hmarked hlinked =>
          exact congrArg (_ :: ·) (ih fun d hd => hrest d (List.mem_cons_of_mem _ hd))
  | marked h hback ih =>
      cases h with
      | marked h =>
          cases h.opens with
          | code t => exact absurd (hrest _ List.mem_cons_self) (by decide)
          | strong hc t =>
              refine absurd (hrest _ List.mem_cons_self) ?_
              obtain rfl | rfl := hc <;> decide
          | emphasis hc ht =>
              refine absurd (hrest _ List.mem_cons_self) ?_
              obtain rfl | rfl := hc <;> decide
  | link h hlabel hback ihlabel ih =>
      cases h with
      | link h =>
          rw [h.reads] at hrest
          exact absurd (hrest '[' List.mem_cons_self) (by decide)

theorem ReadsLine.unmarked {raw : Text} {after : Bool} {pieces : List Span}
    (h : ReadsLine alnum false raw after pieces) (hraw : Unmarked raw) :
    textOf pieces = trimEnd raw ∧ after = false := by
  have hcut : indent raw ++ body raw = trimEnd raw := List.takeWhile_append_dropWhile
  cases h with
  | fence h => exact absurd h hraw.fence
  | heading h htitle hreads => exact absurd htitle (hraw.title _)
  | rule h htitle hrule => exact absurd hrule hraw.rule
  | bullet h htitle hrule hquote hbullet hitem hreads =>
      have hinner := hquote.eq_body hraw.quote
      exact absurd ⟨_, (hitem.symm.trans hinner)⟩ (hraw.bullet _ hbullet)
  | text h htitle hrule hquote hbullet hreads =>
      obtain rfl := hquote.eq_body hraw.quote
      have hmem : ∀ c ∈ body raw, c ∈ raw := fun c hc =>
        (List.rdropWhile_prefix isWhitespace raw).subset
            ((List.dropWhile_suffix isWhitespace).subset hc)
      rw [textOf_cons, hreads.unmarked fun c hc => hraw.inside c (hmem c hc)]
      exact ⟨hcut, rfl⟩

theorem ReadsLines.unmarked {lines : List Text} {pieces : List Span}
    (h : ReadsLines alnum false lines pieces) (hlines : ∀ raw ∈ lines, Unmarked raw) :
    textOf pieces = join "\n" (lines.map trimEnd) := by
  induction lines generalizing pieces with
  | nil => cases h
  | cons raw lines ih =>
      obtain ⟨hraw, hlines⟩ := List.forall_mem_cons.mp hlines
      cases h with
      | last h => exact (h.unmarked hraw).1
      | next h hrest =>
          obtain ⟨hline, rfl⟩ := h.unmarked hraw
          have hne : lines ≠ [] := by
            rintro rfl
            cases hrest
          rw [List.map_cons, join_cons (by simpa using hne), textOf_append, textOf_cons, hline,
            ih hrest hlines, List.append_assoc]
          rfl

/-- Every text is split into spans, and they are its reading. -/
theorem spans_reading (alnum : Char → Bool) (text : Text) : ∃ out pieces,
    spans alnum text = some out ∧ ReadsLines alnum false (text.splitOn '\n') pieces ∧
      Neat out ∧ styled out = styled pieces ∧ textOf out = textOf pieces ∧
      ((∀ raw ∈ text.splitOn '\n', Unmarked raw) →
        textOf out = join "\n" ((text.splitOn '\n').map trimEnd)) := by
  obtain ⟨pieces, hreads, hspans⟩ := spans_spec alnum text
  have hstyled : styled (pushAll [] pieces) = styled pieces := styled_pushAll [] pieces
  have htext : textOf (pushAll [] pieces) = textOf pieces := by
    rw [← map_fst_styled, ← map_fst_styled, hstyled]
  refine ⟨_, pieces, hspans, hreads, ?_, hstyled, htext, fun h => htext.trans (hreads.unmarked h)⟩
  exact Neat.pushAll ⟨fun _ h => absurd h List.not_mem_nil, .nil⟩ pieces

/-- Blanks at the end of a line are not drawn, with or without markers. -/
theorem not_unchanged : ¬∀ (alnum : Char → Bool) (raw : Text), '\n' ∉ raw → Unmarked raw →
    ∃ out, spans alnum raw = some out ∧ textOf out = raw := by
  intro h
  have hmarked : Unmarked "a " := by
    refine ⟨by decide, ?_, ?_, ?_, by decide, by decide⟩
    · rw [IsFence]
      decide
    · rintro title ⟨_ | ⟨c, hashes⟩, heq, hmem, hlow, -⟩
      · exact absurd hlow (by decide)
      · have hc : c = 'a' := (List.cons.inj heq).1.symm
        exact absurd (hmem c List.mem_cons_self) (by rw [hc]; decide)
    · exact fun h => absurd h.1 (by decide)
  obtain ⟨out, hout, htext⟩ := h (fun _ => false) "a " (by decide) hmarked
  have hspans : spans (fun _ => false) "a " = some [⟨['a'], .normal⟩] := by decide
  obtain rfl := Option.some.inj (hout.symm.trans hspans)
  exact absurd htext (by decide)

end MindOS.Wm.Markdown
