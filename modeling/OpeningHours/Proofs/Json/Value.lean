import OpeningHours.Json.Value
import OpeningHours.Proofs.Json.Token

/-!
A written value is read back. The tokens of a value can be told apart when they are written without spaces,
since a mark stands between any two others, and the builder finds the value of its own tokens: reading
them where a value is due comes to placing that value on the stack. Main statement: `parse?` undoes
`render` for every value. What is written stands on one line, and ending that line makes no difference.
-/

namespace OpeningHours.Json.Value

/-! ### Neighbouring tokens -/

theorem isChain_cons_mark {m : Mark} {ts : List Token} (hts : ts.IsChain Scan.Apart) :
    (Token.mark m :: ts).IsChain Scan.Apart :=
  List.isChain_cons.2 ⟨fun _ _ => .inl ⟨m, rfl⟩, hts⟩

theorem isChain_append_mark {ts us : List Token} {m : Mark} (hts : ts.IsChain Scan.Apart)
    (hus : (Token.mark m :: us).IsChain Scan.Apart) : (ts ++ .mark m :: us).IsChain Scan.Apart := by
  refine List.isChain_append.2 ⟨hts, hus, fun t _ u hu => .inr ⟨m, ?_⟩⟩
  exact (Option.some.inj hu).symm

theorem itemTokens_eq (vs : List Value) : ∃ m ts, itemTokens vs = .mark m :: ts := by
  cases vs with
  | nil => exact ⟨_, _, rfl⟩
  | cons v vs => exact ⟨_, _, rfl⟩

theorem memberTokens_eq (ms : List (List CodePoint × Value)) :
    ∃ m ts, memberTokens ms = .mark m :: ts := by
  cases ms with
  | nil => exact ⟨_, _, rfl⟩
  | cons m ms => exact ⟨_, _, rfl⟩

theorem isChain_item {v : Value} {vs : List Value} (hv : v.tokens.IsChain Scan.Apart)
    (hvs : (itemTokens vs).IsChain Scan.Apart) : (v.tokens ++ itemTokens vs).IsChain Scan.Apart := by
  obtain ⟨m, ts, he⟩ := itemTokens_eq vs
  rw [he] at hvs ⊢
  exact isChain_append_mark hv hvs

theorem isChain_member {k : List CodePoint} {v : Value} {ms : List (List CodePoint × Value)}
    (hv : v.tokens.IsChain Scan.Apart) (hms : (memberTokens ms).IsChain Scan.Apart) :
    (.quoted k :: .mark .colon :: (v.tokens ++ memberTokens ms)).IsChain Scan.Apart := by
  obtain ⟨m, ts, he⟩ := memberTokens_eq ms
  rw [he] at hms ⊢
  refine List.isChain_cons.2 ⟨fun u hu => .inr ⟨.colon, (Option.some.inj hu).symm⟩, ?_⟩
  exact isChain_cons_mark (isChain_append_mark hv hms)

mutual

theorem isChain_tokens : ∀ v : Value, v.tokens.IsChain Scan.Apart
  | null => List.isChain_singleton _
  | bool _ => List.isChain_singleton _
  | number _ => List.isChain_singleton _
  | string _ => List.isChain_singleton _
  | array [] => isChain_cons_mark (List.isChain_singleton _)
  | array (v :: vs) => isChain_cons_mark (isChain_item (isChain_tokens v) (isChain_itemTokens vs))
  | object [] => isChain_cons_mark (List.isChain_singleton _)
  | object ((_, v) :: ms) => isChain_cons_mark (isChain_member (isChain_tokens v) (isChain_memberTokens ms))

theorem isChain_itemTokens : ∀ vs : List Value, (itemTokens vs).IsChain Scan.Apart
  | [] => List.isChain_singleton _
  | v :: vs => isChain_cons_mark (isChain_item (isChain_tokens v) (isChain_itemTokens vs))

theorem isChain_memberTokens : ∀ ms : List (List CodePoint × Value),
    (memberTokens ms).IsChain Scan.Apart
  | [] => List.isChain_singleton _
  | (_, v) :: ms => isChain_cons_mark (isChain_member (isChain_tokens v) (isChain_memberTokens ms))

end

/-! ### Building -/

namespace Build

/-- Where an array may also end at once, its first item is read like any value. -/
theorem build_valueOrClose (fs : List Frame) (v : Value) (us : List Token) :
    (v.tokens ++ us).foldlM step ⟨fs, .valueOrClose⟩ = (v.tokens ++ us).foldlM step ⟨fs, .value⟩ := by
  cases v with
  | null => rfl
  | bool b => rfl
  | number n => rfl
  | string content => rfl
  | array vs => cases vs <;> rfl
  | object ms =>
    cases ms with
    | nil => rfl
    | cons m ms => rfl

mutual

/-- Where a value is due, reading its tokens comes to placing it. -/
theorem build_value : ∀ (v : Value) (fs : List Frame),
    v.tokens.foldlM step ⟨fs, .value⟩ = place v fs
  | null, fs => bind_pure (place null fs)
  | bool true, fs => bind_pure (place (bool true) fs)
  | bool false, fs => bind_pure (place (bool false) fs)
  | number n, fs => bind_pure (place (number n) fs)
  | string content, fs => bind_pure (place (string content) fs)
  | array [], fs => bind_pure (place (array []) fs)
  | array (v :: vs), fs => by
    have hopen : step ⟨fs, .value⟩ (.mark .openArray) = some ⟨.array [] :: fs, .valueOrClose⟩ := rfl
    rw [tokens, List.cons_append, List.foldlM_cons, hopen]
    show (v.tokens ++ itemTokens vs).foldlM step _ = _
    rw [build_valueOrClose, List.foldlM_append, build_value v]
    exact build_items vs [v] fs
  | object [], fs => bind_pure (place (object []) fs)
  | object ((k, v) :: ms), fs => by
    rw [tokens]
    show (v.tokens ++ memberTokens ms).foldlM step ⟨.member [] k :: fs, .value⟩ = _
    rw [List.foldlM_append, build_value v]
    exact build_members ms [(k, v)] fs

theorem build_items : ∀ (vs items : List Value) (fs : List Frame),
    (itemTokens vs).foldlM step ⟨.array items :: fs, .commaOrClose⟩ =
      place (.array (items.reverse ++ vs)) fs
  | [], items, fs => by
    rw [List.append_nil]
    exact bind_pure (place (array items.reverse) fs)
  | v :: vs, items, fs => by
    rw [itemTokens]
    show (v.tokens ++ itemTokens vs).foldlM step ⟨.array items :: fs, .value⟩ = _
    rw [List.foldlM_append, build_value v]
    show (itemTokens vs).foldlM step ⟨.array (v :: items) :: fs, .commaOrClose⟩ = _
    rw [build_items vs, List.reverse_cons, List.append_assoc]
    rfl

theorem build_members : ∀ (ms members : List (List CodePoint × Value)) (fs : List Frame),
    (memberTokens ms).foldlM step ⟨.object members :: fs, .commaOrClose⟩ =
      place (.object (members.reverse ++ ms)) fs
  | [], members, fs => by
    rw [List.append_nil]
    exact bind_pure (place (object members.reverse) fs)
  | (k, v) :: ms, members, fs => by
    rw [memberTokens]
    show (v.tokens ++ memberTokens ms).foldlM step ⟨.member members k :: fs, .value⟩ = _
    rw [List.foldlM_append, build_value v]
    show (memberTokens ms).foldlM step ⟨.object ((k, v) :: members) :: fs, .commaOrClose⟩ = _
    rw [build_members ms, List.reverse_cons, List.append_assoc]
    rfl

end

end Build

theorem ofTokens?_tokens (v : Value) : ofTokens? v.tokens = some v := by
  rw [ofTokens?, Build.start, Build.build_value]
  rfl

/-- Every value is read back as written. -/
theorem parse?_render (v : Value) : parse? v.render = some v := by
  rw [parse?, render, String.toList_ofList, ofChars?, chars, tokens?_chars (isChain_tokens v)]
  exact ofTokens?_tokens v

/-! ### As a line -/

/-- A text may end with a line break. -/
theorem parse?_append_newline (text : String) : parse? (text ++ "\n") = parse? text := by
  rw [parse?, parse?, String.toList_append]
  exact congrArg (Option.bind · ofTokens?) (tokens?_append_newline text.toList)

/-- A written value is one line. -/
theorem newline_not_mem_render (v : Value) : '\n' ∉ v.render.toList := by
  rw [render, String.toList_ofList, chars, List.mem_flatMap]
  rintro ⟨t, -, ht⟩
  exact newline_not_mem_token t ht

end OpeningHours.Json.Value
