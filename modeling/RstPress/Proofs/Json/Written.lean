import RstPress.Json.Read
import RstPress.Proofs.Json.Spelling

/-!
A written value is read back. Its text has the same tokens in both styles, since the styles differ in
white space only, and these tokens complete the value whatever containers are open around it.
-/

namespace RstPress.Json

mutual

/-- The tokens of a value. -/
def tokensOf : Json → List Token
  | .null => [.null]
  | .bool value => [.bool value]
  | .number spelling => [.number spelling]
  | .string points => [.string points]
  | .array [] => [.openArray, .closeArray]
  | .array (item :: items) => .openArray :: (tokensOf item ++ tokensOfItems items)
  | .object [] => [.openObject, .closeObject]
  | .object ((key, value) :: fields) =>
    .openObject :: .string key :: .colon :: (tokensOf value ++ tokensOfFields fields)

/-- The tokens after the first item of an array. -/
def tokensOfItems : List Json → List Token
  | [] => [.closeArray]
  | item :: items => .comma :: (tokensOf item ++ tokensOfItems items)

/-- The tokens after the first field of an object. -/
def tokensOfFields : List (List Nat × Json) → List Token
  | [] => [.closeObject]
  | (key, value) :: fields =>
    .comma :: .string key :: .colon :: (tokensOf value ++ tokensOfFields fields)

end

mutual

/-- A value that can be written: numbers are spelled as numbers, and strings hold code points. -/
def Sound : Json → Prop
  | .null | .bool _ => True
  | .number spelling => isNumber spelling
  | .string points => ∀ point ∈ points, point < 0x110000
  | .array items => SoundItems items
  | .object fields => SoundFields fields

def SoundItems : List Json → Prop
  | [] => True
  | item :: items => Sound item ∧ SoundItems items

def SoundFields : List (List Nat × Json) → Prop
  | [] => True
  | (key, value) :: fields => (∀ point ∈ key, point < 0x110000) ∧ Sound value ∧ SoundFields fields

end

theorem isSpace_of_mem_newline {style : Style} {level : Nat} {c : Char}
    (member : c ∈ style.newline level) : isSpace c := by
  cases style with
  | compact => cases member
  | pretty =>
    rcases List.mem_cons.mp member with rfl | space
    · rfl
    · rw [(List.mem_replicate.mp space).2]
      rfl

theorem tokens_newline (style : Style) (level : Nat) (rest : List Char) :
    tokens (style.newline level ++ rest) = tokens rest :=
  tokens_of_spaces (fun _ member => isSpace_of_mem_newline member) rest

theorem tokens_colon (style : Style) (rest : List Char) :
    tokens (style.colon ++ rest) = (tokens rest).map (.colon :: ·) := by
  cases style with
  | compact => exact tokens_punctuation ':' .colon rfl rest
  | pretty =>
    rw [Style.colon, List.cons_append, tokens_punctuation ':' .colon rfl, List.singleton_append,
      tokens_of_isSpace rfl]

theorem ended_newline (style : Style) (level : Nat) (c : Char) (ends : Ended [c]) (rest : List Char) :
    Ended (style.newline level ++ c :: rest) := by
  cases style with
  | compact => exact ends
  | pretty => rfl

theorem ended_writeItems (style : Style) (level : Nat) (items : List Json) (rest : List Char) :
    Ended (writeItems style (level + 1) items ++ (style.newline level ++ ']' :: rest)) := by
  cases items with
  | nil => exact ended_newline style level ']' rfl rest
  | cons item items => rfl

theorem ended_writeFields (style : Style) (level : Nat) (fields : List (List Nat × Json))
    (rest : List Char) :
    Ended (writeFields style (level + 1) fields ++ (style.newline level ++ '\x7d' :: rest)) := by
  cases fields with
  | nil => exact ended_newline style level '\x7d' rfl rest
  | cons field fields => rfl

mutual

/-- Whatever follows a written value, its tokens come first. -/
theorem tokens_write (style : Style) (level : Nat) :
    (json : Json) → json.Sound → {rest : List Char} → Ended rest →
      tokens (write style level json ++ rest) = (tokens rest).map (json.tokensOf ++ ·)
  | .null, _, _, ended => tokens_word rfl ended
  | .bool true, _, _, ended => tokens_word rfl ended
  | .bool false, _, _, ended => tokens_word rfl ended
  | .number _, sound, _, ended => tokens_number sound ended
  | .string _, sound, rest, _ => tokens_writeString sound rest
  | .array [], _, rest, _ => by
    simp only [write, tokensOf, List.cons_append, List.nil_append]
    rw [tokens_punctuation '[' .openArray rfl, tokens_punctuation ']' .closeArray rfl,
      Option.map_map]
    rfl
  | .array (item :: items), sound, rest, _ => by
    have first := tokens_write style (level + 1) item sound.1 (ended_writeItems style level items rest)
    have others := tokens_writeItems style level items sound.2 rest
    have whole : write style level (.array (item :: items)) ++ rest =
        '[' :: (style.newline (level + 1) ++ (write style (level + 1) item ++
          (writeItems style (level + 1) items ++ (style.newline level ++ ']' :: rest)))) := by
      simp [write]
    rw [whole, tokens_punctuation '[' .openArray rfl, tokens_newline, first, others,
      Option.map_map, Option.map_map, tokensOf]
    simp only [Function.comp_def, List.cons_append, List.append_assoc]
  | .object [], _, rest, _ => by
    simp only [write, tokensOf, List.cons_append, List.nil_append]
    rw [tokens_punctuation '\x7b' .openObject rfl, tokens_punctuation '\x7d' .closeObject rfl,
      Option.map_map]
    rfl
  | .object ((key, value) :: fields), sound, rest, _ => by
    have first :=
      tokens_write style (level + 1) value sound.2.1 (ended_writeFields style level fields rest)
    have others := tokens_writeFields style level fields sound.2.2 rest
    have whole : write style level (.object ((key, value) :: fields)) ++ rest =
        '\x7b' :: (style.newline (level + 1) ++ (writeString key ++ (style.colon ++
          (write style (level + 1) value ++ (writeFields style (level + 1) fields ++
            (style.newline level ++ '\x7d' :: rest)))))) := by
      simp [write]
    rw [whole, tokens_punctuation '\x7b' .openObject rfl, tokens_newline,
      tokens_writeString sound.1, tokens_colon, first, others]
    simp only [Option.map_map, Function.comp_def, tokensOf, List.cons_append, List.append_assoc]

theorem tokens_writeItems (style : Style) (level : Nat) :
    (items : List Json) → SoundItems items → (rest : List Char) →
      tokens (writeItems style (level + 1) items ++ (style.newline level ++ ']' :: rest)) =
        (tokens rest).map (tokensOfItems items ++ ·)
  | [], _, rest => by
    rw [writeItems, List.nil_append, tokens_newline, tokens_punctuation ']' .closeArray rfl]
    rfl
  | item :: items, sound, rest => by
    have first := tokens_write style (level + 1) item sound.1 (ended_writeItems style level items rest)
    have others := tokens_writeItems style level items sound.2 rest
    have whole : writeItems style (level + 1) (item :: items) ++ (style.newline level ++ ']' :: rest) =
        ',' :: (style.newline (level + 1) ++ (write style (level + 1) item ++
          (writeItems style (level + 1) items ++ (style.newline level ++ ']' :: rest)))) := by
      simp [writeItems]
    rw [whole, tokens_punctuation ',' .comma rfl, tokens_newline, first, others]
    simp only [Option.map_map, Function.comp_def, tokensOfItems, List.cons_append, List.append_assoc]

theorem tokens_writeFields (style : Style) (level : Nat) :
    (fields : List (List Nat × Json)) → SoundFields fields → (rest : List Char) →
      tokens (writeFields style (level + 1) fields ++ (style.newline level ++ '\x7d' :: rest)) =
        (tokens rest).map (tokensOfFields fields ++ ·)
  | [], _, rest => by
    rw [writeFields, List.nil_append, tokens_newline, tokens_punctuation '\x7d' .closeObject rfl]
    rfl
  | (key, value) :: fields, sound, rest => by
    have first :=
      tokens_write style (level + 1) value sound.2.1 (ended_writeFields style level fields rest)
    have others := tokens_writeFields style level fields sound.2.2 rest
    have whole : writeFields style (level + 1) ((key, value) :: fields) ++
        (style.newline level ++ '\x7d' :: rest) =
        ',' :: (style.newline (level + 1) ++ (writeString key ++ (style.colon ++
          (write style (level + 1) value ++ (writeFields style (level + 1) fields ++
            (style.newline level ++ '\x7d' :: rest)))))) := by
      simp [writeFields]
    rw [whole, tokens_punctuation ',' .comma rfl, tokens_newline, tokens_writeString sound.1,
      tokens_colon, first, others]
    simp only [Option.map_map, Function.comp_def, tokensOfFields, List.cons_append,
      List.append_assoc]

end

/-- In an array that has no item yet, a value may begin as well as an array may end. -/
theorem run_firstItem (json : Json) (stack : List Frame) (more : List Token) :
    (State.firstItem stack).run (json.tokensOf ++ more) =
      (State.value (.array [] :: stack)).run (json.tokensOf ++ more) := by
  cases json with
  | null | bool | number | string => rfl
  | array items => cases items <;> rfl
  | object fields => cases fields <;> rfl

mutual

/-- The tokens of a value complete it, and the containers around it stay as they are. -/
theorem run_tokensOf : (json : Json) → (stack : List Frame) → (more : List Token) →
    (State.value stack).run (json.tokensOf ++ more) = (State.ended json stack).run more
  | .null, _, _ | .bool _, _, _ | .number _, _, _ | .string _, _, _ => rfl
  | .array [], _, _ | .object [], _, _ => rfl
  | .array (item :: items), stack, more => by
    have begins : (State.value stack).run ((Json.array (item :: items)).tokensOf ++ more) =
        (State.firstItem stack).run (item.tokensOf ++ (tokensOfItems items ++ more)) := by
      rw [tokensOf, List.cons_append, List.append_assoc]
      rfl
    rw [begins, run_firstItem, run_tokensOf item, run_tokensOfItems items]
    rfl
  | .object ((key, value) :: fields), stack, more => by
    have begins : (State.value stack).run ((Json.object ((key, value) :: fields)).tokensOf ++ more) =
        (State.value (.object [] key :: stack)).run
          (value.tokensOf ++ (tokensOfFields fields ++ more)) := by
      rw [tokensOf, List.cons_append, List.cons_append, List.cons_append, List.append_assoc]
      rfl
    rw [begins, run_tokensOf value, run_tokensOfFields fields]
    rfl

theorem run_tokensOfItems : (items : List Json) → (last : Json) → (before : List Json) →
    (stack : List Frame) → (more : List Token) →
      (State.ended last (.array before :: stack)).run (tokensOfItems items ++ more) =
        (State.ended (.array (before.reverse ++ last :: items)) stack).run more
  | [], last, before, stack, more => by
    have ends : (State.ended last (.array before :: stack)).run (tokensOfItems [] ++ more) =
        (State.ended (.array (last :: before).reverse) stack).run more := rfl
    rw [ends, List.reverse_cons]
  | item :: items, last, before, stack, more => by
    have begins : (State.ended last (.array before :: stack)).run
        (tokensOfItems (item :: items) ++ more) =
        (State.value (.array (last :: before) :: stack)).run
          (item.tokensOf ++ (tokensOfItems items ++ more)) := by
      rw [tokensOfItems, List.cons_append, List.append_assoc]
      rfl
    rw [begins, run_tokensOf item, run_tokensOfItems items, List.reverse_cons, List.append_assoc]
    rfl

theorem run_tokensOfFields : (fields : List (List Nat × Json)) → (key : List Nat) →
    (last : Json) → (before : List (List Nat × Json)) → (stack : List Frame) →
      (more : List Token) →
      (State.ended last (.object before key :: stack)).run (tokensOfFields fields ++ more) =
        (State.ended (.object (before.reverse ++ (key, last) :: fields)) stack).run more
  | [], key, last, before, stack, more => by
    have ends : (State.ended last (.object before key :: stack)).run (tokensOfFields [] ++ more) =
        (State.ended (.object ((key, last) :: before).reverse) stack).run more := rfl
    rw [ends, List.reverse_cons]
  | (next, value) :: fields, key, last, before, stack, more => by
    have begins : (State.ended last (.object before key :: stack)).run
        (tokensOfFields ((next, value) :: fields) ++ more) =
        (State.value (.object ((key, last) :: before) next :: stack)).run
          (value.tokensOf ++ (tokensOfFields fields ++ more)) := by
      rw [tokensOfFields, List.cons_append, List.cons_append, List.cons_append, List.append_assoc]
      rfl
    rw [begins, run_tokensOf value, run_tokensOfFields fields, List.reverse_cons, List.append_assoc]
    rfl

end

/-- A written value is read back, in either style. -/
theorem parse?_write (style : Style) {json : Json} (sound : json.Sound) :
    parse? (write style 0 json) = some json := by
  have ended : Ended [] := rfl
  have found := tokens_write style 0 json sound ended
  have run := run_tokensOf json [] []
  rw [List.append_nil] at found run
  simp only [parse?, found, tokens, Option.map_some, List.append_nil, run, Option.bind_eq_bind,
    Option.bind_some]
  rfl

end RstPress.Json
