import CppCode.Library.Words
import CppCode.Mongoose.LocalPath

/-!
# Access lists

`mg_check_ip_acl` decides whether a client may use the server, by a list of networks that are
allowed or denied. The last network of the list with the client decides, and a client of none is
denied unless the list is empty (`mgCheckIpAcl_rules`).
-/

namespace CppCode.Mongoose

open Library

/-! ## The code -/

/-- `%d` of `sscanf`: the number, and the input behind it. `wide` says what is stored of a number
that is no `int`. -/
def scanInt (wide : Int → Int) (input : Bytes) : Option (Int × Bytes) :=
  let input := input.dropWhile isspace
  let digits := if input.head? = some 45 ∨ input.head? = some 43 then input.tail else input
  let number := digits.takeWhile isDigit
  let value : Int := if input.head? = some 45 then -digitsValue number else digitsValue number
  if number = [] then none
  else
    some (if -2 ^ 31 ≤ value ∧ value ≤ intMax then value else wide value,
      digits.drop number.length)

/-- A byte of the format of `sscanf`. -/
def scanByte (byte : UInt8) (input : Bytes) : Option Bytes :=
  if input.head? = some byte then some input.tail else none

/-- `%d.%d.%d.%d` of `sscanf`. -/
def scanAddress (wide : Int → Int) (input : Bytes) : Option ((Int × Int × Int × Int) × Bytes) := do
  let (a, input) ← scanInt wide input
  let input ← scanByte 46 input
  let (b, input) ← scanInt wide input
  let input ← scanByte 46 input
  let (c, input) ← scanInt wide input
  let input ← scanByte 46 input
  let (d, input) ← scanInt wide input
  some ((a, b, c, d), input)

/-- `isbyte`. -/
def isbyte (n : Int) : Bool := 0 ≤ n && n ≤ 255

/-- `*net` of `parse_net`. -/
def netWord (a b c d : Int) : BitVec 32 :=
  BitVec.ofInt 32 a <<< 24 ||| BitVec.ofInt 32 b <<< 16 ||| BitVec.ofInt 32 c <<< 8 |||
    BitVec.ofInt 32 d

/-- `*mask` of `parse_net`. -/
def maskWord (slash : Int) : BitVec 32 :=
  if slash ≠ 0 then BitVec.allOnes 32 <<< (32 - slash.toNat) else 0

/-- `parse_net` on the C string from the network on: `len`, `*net` and `*mask`, `none` when it
returns 0. The second `sscanf` reads what the first one does up to the slash. -/
def parseNet (wide : Int → Int) (spec : Bytes) : Option (Nat × BitVec 32 × BitVec 32) := do
  let ((a, b, c, d), rest) ← scanAddress wide spec
  let (slash, rest) := ((scanByte 47 rest).bind (scanInt wide)).getD (32, rest)
  if isbyte a && isbyte b && isbyte c && isbyte d && 0 ≤ slash && slash < 33 then
    some (spec.length - rest.length, netWord a b c d, maskWord slash)
  else none

/-- The loop of `mg_check_ip_acl`. An entry is read from the list itself, to the end of the list. -/
def aclLoop (wide : Int → Int) (remoteIp : BitVec 32) (acl : Bytes) (allowed : UInt8) : Int :=
  match next : mgNextCommaListEntry acl with
  | none => if allowed = 43 then 1 else 0
  | some (_, rest) =>
    have : rest.length < acl.length := mgNextCommaListEntry_lt next
    let flag := acl.headD 0
    if flag ≠ 43 ∧ flag ≠ 45 then -1
    else
      match parseNet wide acl.tail with
      | none => -1
      | some (_, net, mask) =>
        aclLoop wide remoteIp rest (if net = remoteIp &&& mask then flag else allowed)
termination_by acl.length

/-- `mg_check_ip_acl`, whose list is a C string or `NULL`. -/
def mgCheckIpAcl (wide : Int → Int) (acl : Option Bytes) (remoteIp : BitVec 32) : Int :=
  aclLoop wide remoteIp (acl.getD []) (if acl.getD [] = [] then 43 else 45)

/-! ## The meaning -/

/-- A network that is allowed or denied. -/
structure AclRule where
  /-- Whether it is allowed. -/
  allow : Bool
  /-- The first byte of its address. -/
  a : UInt8
  /-- The second one. -/
  b : UInt8
  /-- The third one. -/
  c : UInt8
  /-- The last one. -/
  d : UInt8
  /-- How many bits of the address the network has, all of them when it does not say. -/
  bits : Option (Fin 33)
  deriving Repr

namespace AclRule

/-- How the list spells the network. -/
def spec (rule : AclRule) : Bytes :=
  decimal rule.a.toNat ++ 46 :: (decimal rule.b.toNat ++ 46 :: (decimal rule.c.toNat ++
    46 :: (decimal rule.d.toNat ++ rule.bits.elim [] fun bits => 47 :: decimal bits)))

/-- `+` or `-`. -/
def flag (rule : AclRule) : UInt8 := if rule.allow then 43 else 45

/-- How the list spells the rule. -/
def text (rule : AclRule) : Bytes := rule.flag :: rule.spec

/-- The bits of an address that the network has. -/
def length (rule : AclRule) : Nat := rule.bits.elim 32 fun bits => bits

/-- The network has the client: its address is that of the client with zeros in the other bits. -/
def covers (rule : AclRule) (remoteIp : BitVec 32) : Bool :=
  beValue [rule.a, rule.b, rule.c, rule.d] =
    remoteIp.toNat / 2 ^ (32 - rule.length) * 2 ^ (32 - rule.length)

end AclRule

/-- The list of some rules. -/
def aclText (rules : List AclRule) : Bytes := ([44] : Bytes).intercalate (rules.map AclRule.text)

/-- The last rule for a client decides. Without one, an empty list allows everything. -/
def permitted (rules : List AclRule) (remoteIp : BitVec 32) : Bool :=
  (rules.reverse.find? (·.covers remoteIp)).elim rules.isEmpty AclRule.allow

/-! ## Reading a rule -/

/-- A numeral is read up to its end. -/
theorem scanInt_decimal (wide : Int → Int) {n : Nat} (small : n ≤ intMax) {rest : Bytes}
    (stop : ∀ byte ∈ rest.head?, isDigit byte = false) :
    scanInt wide (decimal n ++ rest) = some ((n : Int), rest) := by
  have digits := decimal_digit n
  have number : (decimal n ++ rest).takeWhile isDigit = decimal n := by
    rw [List.takeWhile_append_of_pos digits]
    cases rest with
    | nil => simp
    | cons byte rest =>
      rw [List.takeWhile_cons_of_neg (by simp [stop byte rfl]), List.append_nil]
  obtain ⟨head, tail, shape⟩ := List.exists_cons_of_ne_nil (decimal_ne_nil n)
  obtain ⟨word, minus, plus⟩ := not_isspace_of_isDigit (digits head (by simp [shape]))
  have first : (decimal n ++ rest).head? = some head := by rw [shape]; rfl
  have blank : (decimal n ++ rest).dropWhile isspace = decimal n ++ rest := by
    rw [shape, List.cons_append, List.dropWhile_cons_of_neg (by simp [word])]
  have range : -2 ^ 31 ≤ (n : Int) ∧ (n : Int) ≤ intMax := by omega
  unfold scanInt
  simp only [blank, first, Option.some.injEq, minus, plus, or_self, if_false, number,
    decimal_ne_nil, digitsValue_decimal, range, and_self, if_true, List.drop_left]

/-- The bytes of an address are read up to its end. -/
theorem scanAddress_spec (wide : Int → Int) (a b c d : UInt8) {rest : Bytes}
    (stop : ∀ byte ∈ rest.head?, isDigit byte = false) :
    scanAddress wide (decimal a.toNat ++ 46 :: (decimal b.toNat ++ 46 :: (decimal c.toNat ++
      46 :: (decimal d.toNat ++ rest)))) =
      some (((a.toNat : Int), (b.toNat : Int), (c.toNat : Int), (d.toNat : Int)), rest) := by
  have small (byte : UInt8) : byte.toNat ≤ intMax := by
    have bound := byte.toNat_lt
    unfold intMax
    omega
  have dot (tail : Bytes) : ∀ byte ∈ ((46 : UInt8) :: tail).head?, isDigit byte = false := by
    intro byte here
    obtain rfl : 46 = byte := by simpa using here
    decide
  simp only [scanAddress, scanByte, scanInt_decimal wide (small _) (dot _),
    scanInt_decimal wide (small d) stop, Option.bind_eq_bind, Option.bind_some, List.head?_cons,
    List.tail_cons, if_true]

/-- The mask leaves the first bits of the address of a client. -/
theorem toNat_and_maskWord (remoteIp : BitVec 32) (length : Nat) :
    (remoteIp &&& maskWord length).toNat =
      remoteIp.toNat / 2 ^ (32 - length) * 2 ^ (32 - length) := by
  have bound := remoteIp.isLt
  unfold maskWord
  by_cases zero : length = 0
  · rw [if_neg (by simp [zero]), zero, Nat.sub_zero, Nat.div_eq_of_lt bound, Nat.zero_mul]
    simp
  · have less : remoteIp.toNat / 2 ^ (32 - length) * 2 ^ (32 - length) < 2 ^ 32 :=
      lt_of_le_of_lt (Nat.div_mul_le_self _ _) bound
    rw [if_pos (by omega), Int.toNat_natCast, ← BitVec.shiftLeft_ushiftRight,
      BitVec.toNat_shiftLeft, BitVec.toNat_ushiftRight, Nat.shiftRight_eq_div_pow,
      Nat.shiftLeft_eq, Nat.mod_eq_of_lt less]

/-- The bytes of an address make up its value. -/
theorem toNat_netWord (a b c d : UInt8) :
    (netWord a.toNat b.toNat c.toNat d.toNat).toNat = beValue [a, b, c, d] := by
  have ha := a.toNat_lt
  have hb := b.toNat_lt
  have hc := c.toNat_lt
  have hd := d.toNat_lt
  have first : a.toNat <<< 24 ||| b.toNat <<< 16 = (a.toNat * 256 + b.toNat) <<< 16 := by
    rw [← Nat.shiftLeft_add_eq_or_of_lt (by rw [Nat.shiftLeft_eq]; omega)]
    simp only [Nat.shiftLeft_eq]
    omega
  have second : (a.toNat * 256 + b.toNat) <<< 16 ||| c.toNat <<< 8 =
      ((a.toNat * 256 + b.toNat) * 256 + c.toNat) <<< 8 := by
    rw [← Nat.shiftLeft_add_eq_or_of_lt (by rw [Nat.shiftLeft_eq]; omega)]
    simp only [Nat.shiftLeft_eq]
    omega
  have third : ((a.toNat * 256 + b.toNat) * 256 + c.toNat) <<< 8 ||| d.toNat =
      ((a.toNat * 256 + b.toNat) * 256 + c.toNat) * 256 + d.toNat := by
    rw [← Nat.shiftLeft_add_eq_or_of_lt (by omega), Nat.shiftLeft_eq]
  have word (byte : UInt8) (count : Nat) (short : byte.toNat * 2 ^ count < 2 ^ 32) :
      (BitVec.ofInt 32 (byte.toNat : Int) <<< count).toNat = byte.toNat <<< count := by
    have bound := byte.toNat_lt
    have whole : byte.toNat % 2 ^ 32 = byte.toNat := Nat.mod_eq_of_lt (by omega)
    rw [BitVec.toNat_shiftLeft, BitVec.ofInt_natCast, BitVec.toNat_ofNat, whole, Nat.shiftLeft_eq,
      Nat.mod_eq_of_lt short]
  have last : (BitVec.ofInt 32 (d.toNat : Int)).toNat = d.toNat := by
    rw [BitVec.ofInt_natCast, BitVec.toNat_ofNat, Nat.mod_eq_of_lt (by omega)]
  rw [netWord, BitVec.toNat_or, BitVec.toNat_or, BitVec.toNat_or, word a 24 (by omega),
    word b 16 (by omega), word c 8 (by omega), last, first, second, third]
  simp only [beValue, leValue, List.reverse_cons, List.reverse_nil, List.nil_append,
    List.cons_append]
  omega

/-- The comparison of the code says whether a network has a client. -/
theorem AclRule.covers_iff (rule : AclRule) (remoteIp : BitVec 32) :
    netWord rule.a.toNat rule.b.toNat rule.c.toNat rule.d.toNat =
      remoteIp &&& maskWord rule.length ↔ rule.covers remoteIp = true := by
  rw [← BitVec.toNat_inj, toNat_netWord, toNat_and_maskWord, covers, decide_eq_true_eq]

/-- A network is parsed up to the comma behind it. -/
theorem parseNet_spec (wide : Int → Int) (rule : AclRule) {rest : Bytes}
    (comma : ∀ byte ∈ rest.head?, byte = 44) :
    ∃ len, parseNet wide (rule.spec ++ rest) =
      some (len, netWord rule.a.toNat rule.b.toNat rule.c.toNat rule.d.toNat,
        maskWord rule.length) := by
  have fine (byte : UInt8) : isbyte (byte.toNat : Int) = true := by
    have bound := byte.toNat_lt
    simp only [isbyte, Bool.and_eq_true, decide_eq_true_eq]
    omega
  have stop : ∀ byte ∈ rest.head?, isDigit byte = false := by
    intro byte here
    rw [comma byte here]
    decide
  cases known : rule.bits with
  | none =>
    have noSlash : scanByte 47 rest = none := by
      refine if_neg fun slash => ?_
      have other := comma 47 (Option.mem_def.mpr slash)
      exact absurd other (by decide)
    have shape : rule.spec ++ rest = decimal rule.a.toNat ++ 46 :: (decimal rule.b.toNat ++
        46 :: (decimal rule.c.toNat ++ 46 :: (decimal rule.d.toNat ++ rest))) := by
      simp [AclRule.spec, known]
    have length : (rule.length : Int) = 32 := by rw [AclRule.length, known]; rfl
    rw [parseNet, shape, scanAddress_spec wide _ _ _ _ stop, length]
    simp [noSlash, fine]
  | some bits =>
    have bound := bits.isLt
    have small : (bits : Nat) ≤ intMax := by
      unfold intMax
      omega
    have shape : rule.spec ++ rest = decimal rule.a.toNat ++ 46 :: (decimal rule.b.toNat ++
        46 :: (decimal rule.c.toNat ++ 46 :: (decimal rule.d.toNat ++
          47 :: (decimal bits ++ rest)))) := by
      simp [AclRule.spec, known]
    have slash : ∀ byte ∈ ((47 : UInt8) :: (decimal bits ++ rest)).head?, isDigit byte = false := by
      intro byte here
      obtain rfl : 47 = byte := by simpa using here
      decide
    have length : rule.length = bits := by rw [AclRule.length, known]; rfl
    have range : 0 ≤ ((bits : Nat) : Int) ∧ ((bits : Nat) : Int) < 33 := by omega
    rw [parseNet, shape, scanAddress_spec wide _ _ _ _ slash, length]
    simp [scanByte, scanInt_decimal wide small stop, fine, range]

/-- No comma stands in a rule. -/
theorem AclRule.comma_not_mem (rule : AclRule) : 44 ∉ rule.text := by
  have numeral (n : Nat) : 44 ∉ decimal n := fun mem => absurd (decimal_digit n 44 mem) (by decide)
  have flag : 44 ≠ rule.flag := by
    unfold AclRule.flag
    split <;> decide
  unfold text spec
  simp only [List.mem_cons, List.mem_append, not_or]
  refine ⟨flag, numeral _, by decide, numeral _, by decide, numeral _, by decide, numeral _, ?_⟩
  cases rule.bits with
  | none => exact List.not_mem_nil
  | some bits =>
    rw [Option.elim_some, List.mem_cons, not_or]
    exact ⟨by decide, numeral _⟩

/-! ## Reading the list -/

/-- The rest of a list behind its first entry. -/
theorem mgNextCommaListEntry_rest {entry rest : Bytes} (present : entry ++ rest ≠ [])
    (plain : 44 ∉ entry) (comma : ∀ byte ∈ rest.head?, byte = 44) :
    ∃ next, mgNextCommaListEntry (entry ++ rest) = some (next, rest.drop 1) := by
  have front : (entry ++ rest).takeWhile (· ≠ 44) = entry := by
    rw [List.takeWhile_append_of_pos]
    · cases rest with
      | nil => simp
      | cons byte rest =>
        rw [List.takeWhile_cons_of_neg (by simp [comma byte rfl]), List.append_nil]
    · intro byte mem
      exact decide_eq_true (ne_of_mem_of_not_mem mem plain)
  have behind : (entry ++ rest).drop (entry.length + 1) = rest.drop 1 := by
    rw [← List.drop_drop, List.drop_left]
  unfold mgNextCommaListEntry
  rw [if_neg present]
  dsimp only
  rw [front, behind]
  split
  · exact ⟨_, rfl⟩
  · exact ⟨_, rfl⟩

/-- What the loop does with an entry. -/
theorem aclLoop_next {wide : Int → Int} {remoteIp : BitVec 32} {acl rest : Bytes}
    {entry : ListEntry} (next : mgNextCommaListEntry acl = some (entry, rest)) (allowed : UInt8) :
    aclLoop wide remoteIp acl allowed =
      if acl.headD 0 ≠ 43 ∧ acl.headD 0 ≠ 45 then -1
      else
        match parseNet wide acl.tail with
        | none => -1
        | some (_, net, mask) =>
          aclLoop wide remoteIp rest
            (if net = remoteIp &&& mask then acl.headD 0 else allowed) := by
  rw [aclLoop]
  split
  · rename_i none_left
    rw [next] at none_left
    exact absurd none_left (by simp)
  · rename_i there
    rw [next] at there
    obtain ⟨rfl, rfl⟩ := Prod.mk.inj (Option.some.inj there)
    rfl

/-- A rule decides for its clients, unless a later one does. -/
theorem aclLoop_rule (wide : Int → Int) (remoteIp : BitVec 32) (rule : AclRule) {rest : Bytes}
    (comma : ∀ byte ∈ rest.head?, byte = 44) (allowed : UInt8) :
    aclLoop wide remoteIp (rule.text ++ rest) allowed =
      aclLoop wide remoteIp (rest.drop 1)
        (if rule.covers remoteIp then rule.flag else allowed) := by
  obtain ⟨entry, there⟩ :=
    mgNextCommaListEntry_rest (by simp [AclRule.text]) rule.comma_not_mem comma
  obtain ⟨len, parsed⟩ := parseNet_spec wide rule comma
  have flag : ¬(rule.flag ≠ 43 ∧ rule.flag ≠ 45) := by
    unfold AclRule.flag
    split <;> decide
  have spec : parseNet wide (rule.text ++ rest).tail = _ := parsed
  have first : (rule.text ++ rest).headD 0 = rule.flag := rfl
  rw [aclLoop_next there, first, if_neg flag, spec]
  simp only [rule.covers_iff]

/-- The text of a list that begins with a rule. -/
theorem aclText_cons (rule : AclRule) (rules : List AclRule) :
    ∃ rest, aclText (rule :: rules) = rule.text ++ rest ∧ (∀ byte ∈ rest.head?, byte = 44) ∧
      rest.drop 1 = aclText rules := by
  cases rules with
  | nil => exact ⟨[], by simp [aclText], by simp, rfl⟩
  | cons second rules =>
    refine ⟨44 :: aclText (second :: rules), ?_, by simp, rfl⟩
    rw [aclText, List.map_cons, List.map_cons, List.intercalate_cons_cons, ← List.map_cons]
    simp [aclText]

/-- The loop keeps the flag of the last rule that has the client. -/
theorem aclLoop_text (wide : Int → Int) (remoteIp : BitVec 32) (rules : List AclRule)
    (allowed : UInt8) :
    aclLoop wide remoteIp (aclText rules) allowed =
      if rules.foldl (fun allowed rule => if rule.covers remoteIp then rule.flag else allowed)
        allowed = 43 then 1 else 0 := by
  induction rules generalizing allowed with
  | nil =>
    have text : aclText [] = [] := rfl
    have done : mgNextCommaListEntry [] = none := rfl
    rw [text, aclLoop]
    split
    · rfl
    · rename_i next
      rw [done] at next
      exact absurd next (by simp)
  | cons rule rules ih =>
    obtain ⟨rest, text, comma, behind⟩ := aclText_cons rule rules
    rw [text, aclLoop_rule wide remoteIp rule comma, behind, ih, List.foldl_cons]

/-- The last rule that has the client. -/
theorem foldl_flag (remoteIp : BitVec 32) (rules : List AclRule) (allowed : UInt8) :
    rules.foldl (fun allowed rule => if rule.covers remoteIp then rule.flag else allowed) allowed =
      (rules.reverse.find? (·.covers remoteIp)).elim allowed AclRule.flag := by
  induction rules using List.reverseRecOn with
  | nil => rfl
  | append_singleton rules rule ih =>
    rw [List.foldl_concat, List.reverse_concat, List.find?_cons, ih]
    cases rule.covers remoteIp with
    | true => rfl
    | false => rfl

/-- A client may use the server if and only if the last network of the list with the client is
allowed, or the list is empty. -/
theorem mgCheckIpAcl_rules (wide : Int → Int) (rules : List AclRule) (remoteIp : BitVec 32) :
    mgCheckIpAcl wide (some (aclText rules)) remoteIp =
      if permitted rules remoteIp then 1 else 0 := by
  have allows (rule : AclRule) : rule.flag = 43 ↔ rule.allow = true := by
    unfold AclRule.flag
    cases rule.allow <;> decide
  have empty : aclText rules = [] ↔ rules = [] := by
    cases rules with
    | nil => exact iff_of_true rfl rfl
    | cons rule rules =>
      obtain ⟨rest, text, -⟩ := aclText_cons rule rules
      rw [text]
      exact iff_of_false (by simp [AclRule.text]) (by simp)
  rw [mgCheckIpAcl, Option.getD_some, aclLoop_text, foldl_flag, permitted]
  cases rules.reverse.find? (·.covers remoteIp) with
  | some rule =>
    rw [Option.elim_some, Option.elim_some]
    by_cases allow : rule.allow = true
    · rw [if_pos ((allows rule).mpr allow), if_pos allow]
    · rw [if_neg fun plus => allow ((allows rule).mp plus), if_neg allow]
  | none =>
    simp only [Option.elim_none, empty, List.isEmpty_iff]
    by_cases nothing : rules = []
    · rw [if_pos nothing, if_pos rfl, if_pos nothing]
    · rw [if_neg nothing, if_neg (by decide), if_neg nothing]

/-- A list that begins with an entry that is not a rule is refused. -/
theorem aclLoop_bad {wide : Int → Int} {bad : Bytes} (present : bad ≠ [])
    (malformed : (bad.headD 0 ≠ 43 ∧ bad.headD 0 ≠ 45) ∨ parseNet wide bad.tail = none)
    (remoteIp : BitVec 32) (allowed : UInt8) : aclLoop wide remoteIp bad allowed = -1 := by
  obtain ⟨entry, rest, next⟩ : ∃ entry rest, mgNextCommaListEntry bad = some (entry, rest) := by
    unfold mgNextCommaListEntry
    rw [if_neg present]
    dsimp only
    split
    · exact ⟨_, _, rfl⟩
    · exact ⟨_, _, rfl⟩
  rw [aclLoop_next next]
  by_cases signed : bad.headD 0 ≠ 43 ∧ bad.headD 0 ≠ 45
  · rw [if_pos signed]
  · rw [if_neg signed, malformed.resolve_left signed]

/-- A list is refused when what follows one of its entries is. -/
theorem aclLoop_entry {wide : Int → Int} {remoteIp : BitVec 32} {entry rest : Bytes}
    (plain : 44 ∉ entry) (refused : ∀ allowed, aclLoop wide remoteIp rest allowed = -1)
    (allowed : UInt8) : aclLoop wide remoteIp (entry ++ 44 :: rest) allowed = -1 := by
  obtain ⟨next, there⟩ := @mgNextCommaListEntry_rest entry (44 :: rest) (by simp) plain (by simp)
  rw [aclLoop_next there]
  split_ifs
  · rfl
  · split
    · rfl
    · exact refused _

/-- A list with an entry that is not a rule is refused, whatever entries stand in front of it. -/
theorem mgCheckIpAcl_malformed (wide : Int → Int) {entries : List Bytes} {bad : Bytes}
    (plain : ∀ entry ∈ entries, 44 ∉ entry) (present : bad ≠ [])
    (malformed : (bad.headD 0 ≠ 43 ∧ bad.headD 0 ≠ 45) ∨ parseNet wide bad.tail = none)
    (remoteIp : BitVec 32) :
    mgCheckIpAcl wide (some (entries.flatMap (· ++ [44]) ++ bad)) remoteIp = -1 := by
  have reached (allowed : UInt8) :
      aclLoop wide remoteIp (entries.flatMap (· ++ [44]) ++ bad) allowed = -1 := by
    induction entries generalizing allowed with
    | nil => exact aclLoop_bad present malformed remoteIp allowed
    | cons entry entries ih =>
      have text : (entry :: entries).flatMap (· ++ [44]) ++ bad =
          entry ++ 44 :: (entries.flatMap (· ++ [44]) ++ bad) := by
        simp
      obtain ⟨first, others⟩ := List.forall_mem_cons.mp plain
      rw [text]
      exact aclLoop_entry first (ih others) allowed
  exact reached _

/-- A network without a sign is not a rule, also behind one that allows the client. -/
theorem unsigned_refused :
    mgCheckIpAcl id (some ([ascii "+10.0.0.0/8"].flatMap (· ++ [44]) ++ ascii "10.1.2.3"))
      (BitVec.ofNat 32 0x0a010203) = -1 :=
  mgCheckIpAcl_malformed id (by decide) (by decide) (.inl (by decide)) (BitVec.ofNat 32 0x0a010203)

end CppCode.Mongoose
