import MindOS.Wm.Markdown.Basic

/-!
# Markers inside a line

A marker counts where its partner is the next one on the line and the text between the two is
marked text; a link counts where an address follows. What is not matched is drawn as it stands.
The loop over byte offsets reads a line so, and every cut it makes is between two characters.
-/

namespace MindOS.Wm.Markdown

open Text

/-- The marker that a text begins with. -/
inductive Opens : Text → Text → Style → Prop where
  | code (t : Text) : Opens ('`' :: t) ['`'] .code
  | strong {c : Char} (hc : c = '*' ∨ c = '_') (t : Text) : Opens (c :: c :: t) [c, c] .strong
  | emphasis {c : Char} (hc : c = '*' ∨ c = '_') {t : Text} (ht : t.head? ≠ some c) :
      Opens (c :: t) [c] .emphasis

/-- The marker is matched: its partner is the first one, and there is marked text between them. -/
structure Marked (alnum : Char → Bool) (before rest mark inner back : Text) (style : Style) :
    Prop where
  opens : Opens rest mark style
  reads : rest = mark ++ (inner ++ (mark ++ back))
  nonempty : inner ≠ []
  first : ∀ front back', rest = mark ++ (front ++ (mark ++ back')) → inner.length ≤ front.length
  /-- Emphasis neither begins nor ends with a space, and an `_` is not inside a word. -/
  tight : style ≠ .code → (∀ c ∈ inner.head?, isWhitespace c = false) ∧
    ∀ c ∈ inner.getLast?, isWhitespace c = false
  apart : style ≠ .code → mark.head? = some '_' →
    (∀ c ∈ before.getLast?, alnum c = false) ∧ ∀ c ∈ back.head?, alnum c = false

/-- `[label](target)` at the front of a text. -/
structure Linked (rest label target back : Text) : Prop where
  reads : rest = '[' :: (label ++ (']' :: '(' :: (target ++ (')' :: back))))
  first : ∀ front back', rest = '[' :: (front ++ (']' :: '(' :: back')) →
    label.length ≤ front.length
  ends : ')' ∉ target

/-- What stands at the front of a text: the part of the text that it takes, and the rest. -/
inductive Next (alnum : Char → Bool) (before : Text) : Text → Token → Text → Text → Prop where
  | escaped (c : Char) (back : Text) : Next alnum before ('\\' :: c :: back)
    (.char c) ['\\', c] back
  | marked {rest mark inner back : Text} {style : Style}
      (h : Marked alnum before rest mark inner back style) :
      Next alnum before rest (.marked inner style) (mark ++ (inner ++ mark)) back
  | link {rest label target back : Text} (h : Linked rest label target back) :
      Next alnum before rest (.link label ((words target).headD []))
        ('[' :: (label ++ (']' :: '(' :: (target ++ [')'])))) back
  | plain {c : Char} {back : Text} (hescape : c ≠ '\\' ∨ back = [])
      (hmarked : ∀ mark inner back' style, ¬Marked alnum before (c :: back) mark inner back' style)
      (hlinked : ∀ label target back', ¬Linked (c :: back) label target back') :
      Next alnum before (c :: back) (.char c) [c] back

/-- The weight of marked text: code is code, and the rest is not lighter than the line. -/
def weight (base style : Style) : Style := if style = .code then style else heavier base style

/-- The address behind the label of a link, where it says more than the label. -/
def address (base : Style) (label url : Text) : List Span :=
  if url ≠ [] ∧ url ≠ label then [⟨" (" ++ url ++ ")", base⟩] else []

/-- The pieces that the rest of a line is drawn as. -/
inductive Reads (alnum : Char → Bool) (base : Style) : Text → Text → List Span → Prop where
  | done (before : Text) : Reads alnum base before [] []
  | char {before rest taken back : Text} {c : Char} {pieces : List Span}
      (h : Next alnum before rest (.char c) taken back)
      (hback : Reads alnum base (before ++ taken) back pieces) :
      Reads alnum base before rest (⟨[c], base⟩ :: pieces)
  | marked {before rest taken back inner : Text} {style : Style} {pieces : List Span}
      (h : Next alnum before rest (.marked inner style) taken back)
      (hback : Reads alnum base (before ++ taken) back pieces) :
      Reads alnum base before rest (⟨inner, weight base style⟩ :: pieces)
  | link {before rest taken back label url : Text} {inside pieces : List Span}
      (h : Next alnum before rest (.link label url) taken back)
      (hlabel : Reads alnum base [] label inside)
      (hback : Reads alnum base (before ++ taken) back pieces) :
      Reads alnum base before rest (inside ++ (address base label url ++ pieces))

variable {alnum : Char → Bool} {before rest mark inner back t : Text} {style : Style}

/-! ## Cuts -/

theorem len_lt {u : Text} (h : u ≠ []) : len t < len (t ++ u) := by
  obtain ⟨c, u, rfl⟩ := List.exists_cons_of_ne_nil h
  have hpos := c.utf8Size_pos
  rw [len_append, len_cons]
  omega

theorem startsWith_underscore : startsWith mark "_" = true ↔ mark.head? = some '_' := by
  rw [startsWith_iff]
  cases mark with
  | nil => exact ⟨fun h => absurd (List.prefix_nil.mp h) (by decide), fun h => nomatch h⟩
  | cons c mark =>
      refine ⟨fun h => ?_, fun h => ?_⟩
      · exact congrArg some (List.cons_prefix_cons.mp h).1.symm
      · obtain rfl := Option.some.inj h
        exact ⟨mark, rfl⟩

theorem any_eq_false_iff {o : Option Char} {p : Char → Bool} :
    o.any p = false ↔ ∀ c ∈ o, p c = false := by
  cases o <;> simp

/-- The conditions on emphasis are those that are checked. -/
theorem flanks_spec (alnum : Char → Bool) (before mark inner back : Text) :
    ∃ ok, flanks alnum (before ++ (mark ++ (inner ++ (mark ++ back)))) (len before)
        (len (before ++ (mark ++ (inner ++ mark)))) mark inner = some ok ∧
      (ok = true ↔ ((∀ c ∈ inner.head?, isWhitespace c = false) ∧
          ∀ c ∈ inner.getLast?, isWhitespace c = false) ∧
        (mark.head? = some '_' →
          (∀ c ∈ before.getLast?, alnum c = false) ∧ ∀ c ∈ back.head?, alnum c = false)) := by
  have hbehind : dropBytes (len (before ++ (mark ++ (inner ++ mark))))
      (before ++ (mark ++ (inner ++ (mark ++ back)))) = some back := by
    rw [← dropBytes_append (before ++ (mark ++ (inner ++ mark))) back]
    simp only [List.append_assoc]
  simp only [← any_eq_false_iff, ← startsWith_underscore]
  rw [flanks, takeBytes_append, hbehind]
  generalize startsWith mark "_" = under
  split
  case isTrue hspace =>
    refine ⟨false, rfl, ⟨(fun h => nomatch h), fun ⟨⟨hhead, hlast⟩, _⟩ => ?_⟩⟩
    rw [hhead, hlast] at hspace
    simp at hspace
  case isFalse hspace =>
    obtain ⟨hhead, hlast⟩ := not_or.mp hspace
    rw [Bool.not_eq_true] at hhead hlast
    cases under with
    | false => exact ⟨true, rfl, by simp [hhead, hlast]⟩
    | true => exact ⟨_, rfl, by simp [hhead, hlast]⟩

/-- The first partner of a marker is found, and the marker is matched if the text is marked text. -/
theorem closed_spec (alnum : Char → Bool) (ho : Opens (mark ++ t) mark style) (before : Text) :
    ∃ found, closed alnum (before ++ (mark ++ t)) (len before) mark (style ≠ .code) = some found ∧
      ((found = none ∧ ∀ inner back, ¬Marked alnum before (mark ++ t) mark inner back style) ∨
        ∃ inner back, Marked alnum before (mark ++ t) mark inner back style ∧
          found = some (inner, len (before ++ (mark ++ (inner ++ mark))))) := by
  have hfrom : dropBytes (len before + len mark) (before ++ (mark ++ t)) = some t := by
    rw [← len_append, ← List.append_assoc, dropBytes_append]
  rw [closed, hfrom, Option.bind_eq_bind, Option.bind_some]
  cases hfind : find mark t with
  | none =>
      refine ⟨none, rfl, .inl ⟨rfl, fun inner back h => find_none hfind inner back ?_⟩⟩
      rw [List.append_assoc]
      exact List.append_cancel_left h.reads
  | some n =>
      obtain ⟨inner, back, rfl, rfl, hfirst⟩ := find_some hfind
      simp only [List.append_assoc] at hfirst ho ⊢
      have hslice : slice (before ++ (mark ++ (inner ++ (mark ++ back)))) (len before + len mark)
          (len inner) = some inner := by
        have h := slice_append (before ++ mark) inner (mark ++ back)
        rwa [len_append, List.append_assoc] at h
      have hafter : len before + len mark + len inner + len mark =
          len (before ++ (mark ++ (inner ++ mark))) := by
        simp only [len_append, Nat.add_assoc]
      -- The first partner is the only one that can match.
      have honly : ∀ {inner' back' : Text}, Marked alnum before
          (mark ++ (inner ++ (mark ++ back))) mark inner' back' style →
          inner' = inner ∧ back' = back := by
        intro inner' back' h
        have heq := List.append_cancel_left h.reads
        have hlength := Nat.le_antisymm (hfirst inner' back' heq) (h.first inner back rfl)
        obtain ⟨hinner, hback⟩ := List.append_inj heq hlength
        exact ⟨hinner.symm, (List.append_cancel_left hback).symm⟩
      simp only [hslice, Option.bind_eq_bind, Option.bind_some, hafter]
      split
      case isTrue hnil =>
        refine ⟨none, rfl, .inl ⟨rfl, fun inner' back' h => h.nonempty ?_⟩⟩
        rw [(honly h).1, hnil]
      case isFalse hne =>
        split
        case isTrue hcode =>
          obtain ⟨ok, hok, hiff⟩ := flanks_spec alnum before mark inner back
          rw [hok, Option.bind_some]
          cases ok with
          | true =>
              obtain ⟨htight, hapart⟩ := hiff.mp rfl
              exact ⟨_, rfl, .inr ⟨inner, back, ⟨ho, rfl, hne, fun front back' heq =>
                hfirst front back' (List.append_cancel_left heq), fun _ => htight,
                fun _ => hapart⟩, rfl⟩⟩
          | false =>
              refine ⟨_, rfl, .inl ⟨rfl, fun inner' back' h => ?_⟩⟩
              obtain ⟨rfl, rfl⟩ := honly h
              have hstyle := of_decide_eq_true hcode
              exact absurd (hiff.mpr ⟨h.tight hstyle, h.apart hstyle⟩) Bool.false_ne_true
        case isFalse hcode =>
          have hstyle : style = .code := by simpa using hcode
          exact ⟨_, rfl, .inr ⟨inner, back, ⟨ho, rfl, hne, fun front back' heq =>
            hfirst front back' (List.append_cancel_left heq), fun h => absurd hstyle h,
            fun h => absurd hstyle h⟩, rfl⟩⟩

/-! ## What stands at a place -/

theorem opens_iff {c : Char} : Opens (c :: t) mark style ↔
    (c = '`' ∧ mark = [c] ∧ style = .code) ∨ (c = '*' ∨ c = '_') ∧
      ((t.head? = some c ∧ mark = [c, c] ∧ style = .strong) ∨
        (t.head? ≠ some c ∧ mark = [c] ∧ style = .emphasis)) := by
  constructor
  · intro h
    cases h with
    | code t => exact .inl ⟨rfl, rfl, rfl⟩
    | strong hc t => exact .inr ⟨hc, .inl ⟨rfl, rfl, rfl⟩⟩
    | emphasis hc ht => exact .inr ⟨hc, .inr ⟨ht, rfl, rfl⟩⟩
  · rintro (⟨rfl, rfl, rfl⟩ | ⟨hc, ⟨hhead, rfl, rfl⟩ | ⟨hhead, rfl, rfl⟩⟩)
    · exact .code t
    · obtain ⟨t, rfl⟩ := List.head?_eq_some_iff.mp hhead
      exact .strong hc t
    · exact .emphasis hc hhead

theorem markerAt_iff {c : Char} {b : UInt8}
    (hb : (bytes (before ++ c :: t))[len before]? = some b) :
    markerAt (bytes (before ++ c :: t)) (len before) b = some (mark, style) ↔
      Opens (c :: t) mark style := by
  have hascii : ∀ a : Char, a.toNat < 128 → (b = ascii a ↔ c = a) := by
    intro a ha
    rw [← byte_eq_iff before t ha, hb, Option.some.injEq]
  have hnext : ∀ a : Char, a.toNat < 128 → c = a →
      ((bytes (before ++ c :: t))[len before + 1]? = some b ↔ t.head? = some a) := by
    rintro a ha rfl
    have hsize : len before + 1 = len (before ++ [c]) := by
      rw [len_append, len_cons, utf8Size_ascii ha, len_nil]
    rw [hsize, List.append_cons, (hascii c ha).mpr rfl]
    cases t with
    | nil => simp
    | cons d t => rw [byte_eq_iff _ t ha, List.head?_cons, Option.some.injEq]
  rw [markerAt, ite_congr (propext (hascii '`' (by decide))) (fun _ => rfl) fun _ => rfl]
  simp only [hascii '*' (by decide), hascii '_' (by decide)]
  rw [opens_iff]
  by_cases hcode : c = '`'
  · obtain rfl := hcode
    rw [if_pos rfl]
    simp [eq_comm]
  rw [if_neg hcode]
  by_cases hc : c = '*' ∨ c = '_'
  · have hdouble : ((bytes (before ++ c :: t))[len before + 1]? = some b) = (t.head? = some c) := by
      obtain rfl | rfl := hc
      · exact propext (hnext _ (by decide) rfl)
      · exact propext (hnext _ (by decide) rfl)
    have htwo : (if c = '*' then "**".toList else "__") = [c, c] := by
      obtain rfl | rfl := hc <;> rfl
    have hone : (if c = '*' then "*".toList else "_") = [c] := by
      obtain rfl | rfl := hc <;> rfl
    rw [if_pos hc, ite_congr hdouble (fun _ => rfl) fun _ => rfl, htwo, hone]
    split
    case isTrue hhead => simp [hcode, hc, hhead, eq_comm]
    case isFalse hhead => simp [hcode, hc, hhead, eq_comm]
  · simp [hcode, hc]

theorem Opens.prefix {rest : Text} (h : Opens rest mark style) : ∃ u, rest = mark ++ u := by
  cases h with
  | code t => exact ⟨t, rfl⟩
  | strong hc t => exact ⟨t, rfl⟩
  | emphasis hc ht => exact ⟨_, rfl⟩

theorem markedAt_spec (alnum : Char → Bool) {c : Char} {b : UInt8}
    (hb : (bytes (before ++ c :: t))[len before]? = some b) :
    ∃ found, markedAt alnum (before ++ c :: t) (len before) b = some found ∧
      ((found = none ∧ ∀ mark inner back style,
          ¬Marked alnum before (c :: t) mark inner back style) ∨
        ∃ mark inner back style, Marked alnum before (c :: t) mark inner back style ∧
          found = some (.marked inner style, len (before ++ (mark ++ (inner ++ mark))))) := by
  rw [markedAt]
  cases hmark : markerAt (bytes (before ++ c :: t)) (len before) b with
  | none =>
      refine ⟨none, rfl, .inl ⟨rfl, fun mark inner back style h => ?_⟩⟩
      rw [(markerAt_iff hb).mpr h.opens] at hmark
      cases hmark
  | some found =>
      obtain ⟨mark, style⟩ := found
      have ho := (markerAt_iff hb).mp hmark
      obtain ⟨u, hu⟩ := ho.prefix
      rw [hu] at ho
      obtain ⟨found, hfound, hcases⟩ := closed_spec alnum ho before
      rw [← hu] at hfound hcases
      simp only [hfound, Option.bind_eq_bind, Option.bind_some]
      obtain ⟨rfl, hnot⟩ | ⟨inner, back, hmarked, rfl⟩ := hcases
      · refine ⟨none, rfl, .inl ⟨rfl, fun mark' inner back style' h => ?_⟩⟩
        rw [(markerAt_iff hb).mpr h.opens] at hmark
        obtain ⟨rfl, rfl⟩ := Prod.mk.inj (Option.some.inj hmark)
        exact hnot inner back h
      · exact ⟨_, rfl, .inr ⟨mark, inner, back, style, hmarked, rfl⟩⟩

/-- A link is a label up to the first `](` and a target up to the first bracket behind it. -/
theorem link_spec (before t : Text) :
    ∃ found, link (before ++ '[' :: t) (len before) = some found ∧
      ((found = none ∧ ∀ label target back, ¬Linked ('[' :: t) label target back) ∨
        ∃ label target back, Linked ('[' :: t) label target back ∧
          found = some (label, (words target).headD [],
            len (before ++ '[' :: (label ++ (']' :: '(' :: (target ++ [')'])))))) := by
  have hfrom : dropBytes (len before + 1) (before ++ '[' :: t) = some t := by
    have h := dropBytes_append (before ++ ['[']) t
    rwa [← List.append_cons, len_append] at h
  rw [link, hfrom, Option.bind_eq_bind, Option.bind_some]
  cases hfind : find "](" t with
  | none =>
      refine ⟨none, rfl, .inl ⟨rfl, fun label target back h => ?_⟩⟩
      refine find_none hfind label (target ++ ')' :: back) ?_
      rw [List.append_assoc]
      exact (List.cons.inj h.reads).2
  | some n =>
      obtain ⟨label, rest, rfl, rfl, hfirst⟩ := find_some hfind
      simp only [List.append_assoc] at hfirst ⊢
      have hclose : len before + 1 + len label + 2 = len (before ++ '[' :: (label ++ "](")) := by
        rw [len_append, len_cons, len_append]
        change _ = len before + (1 + (len label + 2))
        omega
      have hrest : dropBytes (len before + 1 + len label + 2)
          (before ++ '[' :: (label ++ ("](" ++ rest))) = some rest := by
        have h := dropBytes_append (before ++ '[' :: (label ++ "](")) rest
        rw [List.append_assoc, List.cons_append, List.append_assoc] at h
        rw [hclose, h]
      simp only [hrest, Option.bind_some]
      -- The first `](` is the only one that a link has.
      have honly : ∀ {label' target' back' : Text},
          Linked ('[' :: (label ++ ("](" ++ rest))) label' target' back' →
            label' = label ∧ rest = target' ++ ')' :: back' := by
        intro label' target' back' h
        have heq := (List.cons.inj h.reads).2
        have hlow := hfirst label' (target' ++ ')' :: back') heq
        obtain ⟨hlabel, hback⟩ := List.append_inj heq
          (Nat.le_antisymm hlow (h.first label rest rfl))
        exact ⟨hlabel.symm, List.append_cancel_left (hback : "](" ++ _ = "](".toList ++ _)⟩
      cases hend : find ")" rest with
      | none =>
          refine ⟨none, rfl, .inl ⟨rfl, fun label' target' back' h => ?_⟩⟩
          refine find_none hend target' back' ?_
          rw [List.append_assoc]
          exact (honly h).2
      | some m =>
          obtain ⟨target, back, rfl, rfl, hends⟩ := find_some hend
          have htarget : slice (before ++ '[' :: (label ++ ("](" ++ (target ++ ")" ++ back))))
              (len before + 1 + len label + 2) (len target) = some target := by
            have h := slice_append (before ++ '[' :: (label ++ "](")) target (")" ++ back)
            rw [List.append_assoc, List.cons_append, List.append_assoc, ← List.append_assoc target]
              at h
            rw [hclose, h]
          have hlabel : slice (before ++ '[' :: (label ++ ("](" ++ (target ++ ")" ++ back))))
              (len before + 1) (len label) = some label := by
            have h := slice_append (before ++ ['[']) label ("](" ++ (target ++ ")" ++ back))
            rwa [← List.append_cons, len_append] at h
          simp only [htarget, hlabel, Option.bind_some]
          refine ⟨_, rfl, .inr ⟨label, target, back, ⟨?_, ?_, ?_⟩, ?_⟩⟩
          · rw [List.append_assoc]
            rfl
          · exact fun front back' heq => hfirst front back' (List.cons.inj heq).2
          · intro hmem
            obtain ⟨front, behind, rfl⟩ := List.append_of_mem hmem
            have h := hends front (behind ++ ")" ++ back) (by simp)
            rw [List.length_append, List.length_cons] at h
            omega
          · rw [hclose]
            simp only [len_append, len_cons, len_nil]
            congr 3
            change _ + (1 + (len label + 2)) + _ + 1 = _ + (1 + (_ + (1 + (1 + (_ + (1 + 0))))))
            omega

theorem linkAt_spec {c : Char} {b : UInt8} (hb : (bytes (before ++ c :: t))[len before]? = some b) :
    ∃ found, linkAt (before ++ c :: t) (len before) b = some found ∧
      ((found = none ∧ ∀ label target back, ¬Linked (c :: t) label target back) ∨
        ∃ label target back, Linked (c :: t) label target back ∧
          found = some (.link label ((words target).headD []),
            len (before ++ '[' :: (label ++ (']' :: '(' :: (target ++ [')'])))))) := by
  have hiff : b = ascii '[' ↔ c = '[' := by
    rw [← byte_eq_iff before t (by decide : '['.toNat < 128), hb, Option.some.injEq]
  rw [linkAt]
  by_cases hc : c = '['
  · obtain rfl := hc
    obtain ⟨found, hfound, hcases⟩ := link_spec before t
    rw [if_pos (hiff.mpr rfl), hfound]
    obtain ⟨rfl, hnot⟩ | ⟨label, target, back, hlinked, rfl⟩ := hcases
    · exact ⟨none, rfl, .inl ⟨rfl, hnot⟩⟩
    · exact ⟨_, rfl, .inr ⟨label, target, back, hlinked, rfl⟩⟩
  · rw [if_neg fun h => hc (hiff.mp h)]
    refine ⟨none, rfl, .inl ⟨rfl, fun label target back h => hc ?_⟩⟩
    exact (List.cons.inj h.reads).1

/-- One round reads what stands at the front of the rest of the line. -/
theorem look_spec (alnum : Char → Bool) (before : Text) {c : Char} {b : UInt8}
    (hb : (bytes (before ++ c :: t))[len before]? = some b) :
    ∃ token taken back, Next alnum before (c :: t) token taken back ∧
      look alnum (before ++ c :: t) (len before) b = some (token, len (before ++ taken)) := by
  have hescape : b = ascii '\\' ↔ c = '\\' := by
    rw [← byte_eq_iff before t (by decide : '\\'.toNat < 128), hb, Option.some.injEq]
  have hsize : Char.utf8Size '\\' = 1 := rfl
  rw [look, length_bytes, len_append, len_cons]
  by_cases h : c = '\\' ∧ t ≠ []
  · obtain ⟨rfl, hne⟩ := h
    obtain ⟨d, t, rfl⟩ := List.exists_cons_of_ne_nil hne
    have hpos := d.utf8Size_pos
    have hfrom : dropBytes (len before + 1) (before ++ '\\' :: d :: t) = some (d :: t) := by
      have h := dropBytes_append (before ++ ['\\']) (d :: t)
      rwa [← List.append_cons, len_append] at h
    rw [if_pos ⟨hescape.mpr rfl, by rw [len_cons]; omega⟩, hfrom]
    refine ⟨_, _, _, .escaped d t, ?_⟩
    simp only [Option.bind_eq_bind, Option.bind_some, List.head?_cons, len_append, len_cons,
      len_nil, hsize]
    congr 2
    omega
  · have hnot : ¬(b = ascii '\\' ∧ len before + 1 < len before + (c.utf8Size + len t)) := by
      rintro ⟨hbyte, hlt⟩
      obtain rfl := hescape.mp hbyte
      refine h ⟨rfl, ?_⟩
      rintro rfl
      rw [len_nil, hsize] at hlt
      omega
    obtain ⟨found, hfound, hcases⟩ := markedAt_spec alnum hb
    rw [if_neg hnot, hfound, Option.bind_eq_bind, Option.bind_some]
    obtain ⟨rfl, hmarked⟩ | ⟨mark, inner, back, style, hmarked, rfl⟩ := hcases
    · obtain ⟨found, hfound, hcases⟩ := linkAt_spec hb
      simp only [hfound, Option.bind_some]
      obtain ⟨rfl, hlinked⟩ | ⟨label, target, back, hlinked, rfl⟩ := hcases
      · refine ⟨_, _, _, .plain ?_ hmarked hlinked, ?_⟩
        · exact (Decidable.not_and_iff_not_or_not.mp h).imp_right Decidable.not_not.mp
        · rw [dropBytes_append]
          simp only [len_append, len_cons, len_nil, Nat.add_zero]
          rfl
      · exact ⟨_, _, _, .link hlinked, rfl⟩
    · exact ⟨_, _, _, .marked hmarked, rfl⟩

end MindOS.Wm.Markdown
