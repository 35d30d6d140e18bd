import SimplePool.Coinbase.AddressGrammar

/-! The parser against the grammar. The two part on the prefixes that go on after the
separator of a network's own. -/
namespace SimplePool.Coinbase
open Wire Crypto Positional

theorem witness_version (small : version < 32) : UInt8.ofNat version = 0 ↔ version = 0 := by
  have table : ∀ version < 32, UInt8.ofNat version = 0 ↔ version = 0 := by decide
  exact table version small

theorem segwitToScript_iff : segwitToScript addr cap = .ok spk ↔
    spk.length ≤ cap ∧ ∃ hrp version program, hrp.length ≤ 15 ∧
    SegwitAddress hrp version program addr ∧
      Spendable version program ∧ spk = witnessScript version program := by
  constructor
  · intro resolved
    refine ⟨segwitToScript_le resolved, ?_⟩
    rw [segwitToScript] at resolved
    split at resolved
    next => cases resolved
    next => cases resolved
    next witver groups enc decoded =>
      obtain ⟨hrp, values, word, short, bytes⟩ := bech32Decode_iff.mp decoded
      obtain ⟨version, rest, rfl⟩ : ∃ version rest, values = version :: rest := by
        cases values with
        | nil => cases bytes
        | cons version rest => exact ⟨version, rest, rfl⟩
      obtain ⟨rfl, rfl⟩ := List.cons.inj bytes
      have small : ∀ g ∈ version :: rest, g < 32 := by
        obtain ⟨check, parts, _⟩ := word
        exact parts.smallGroups
      obtain ⟨first, others⟩ := List.forall_mem_cons.mp small
      have zero := witness_version first
      split at resolved
      next => cases resolved
      next =>
        split at resolved
        next => cases resolved
        next matched =>
          obtain ⟨older, newer⟩ := not_or.mp matched
          rw [zero, not_and, not_not] at older
          rw [ne_eq, zero, not_and, not_not] at newer
          have encoding : enc = if version = 0 then .bech32 else .bech32m := by
            split
            next is => exact older is
            next not => exact newer not
          split at resolved
          next => cases resolved
          next program converted =>
            obtain ⟨regroups, _⟩ := (convertbits_iff others).mp converted
            have address : SegwitAddress hrp version program addr :=
              ⟨rest, encoding ▸ word, regroups⟩
            refine ⟨hrp, version, program, short, address, ?_⟩
            split at resolved
            next witver =>
              obtain rfl := zero.mp witver
              split at resolved
              next => cases resolved
              next length =>
                split at resolved
                next => cases resolved
                next =>
                  cases resolved
                  exact ⟨.inl ⟨rfl, by omega⟩, rfl⟩
            next =>
              split at resolved
              next => cases resolved
              next witver =>
                obtain rfl : version = 1 := by
                  have table : ∀ version < 32, ¬UInt8.ofNat version ≠ 1 → version = 1 := by decide
                  exact table version first witver
                split at resolved
                next => cases resolved
                next length =>
                  split at resolved
                  next => cases resolved
                  next =>
                    cases resolved
                    rw [not_not] at length
                    refine ⟨.inr ⟨rfl, length⟩, ?_⟩
                    rw [witnessScript, length]
                    rfl
  · rintro ⟨fits, hrp, version, program, short, ⟨groups, word, regroups⟩, spendable, rfl⟩
    have small : ∀ g ∈ groups, g < 32 := by
      obtain ⟨check, parts, _⟩ := word
      exact (List.forall_mem_cons.mp parts.smallGroups).2
    have decoded := bech32Decode_iff.mpr ⟨hrp, version :: groups, word, short, rfl⟩
    rw [List.map_cons] at decoded
    have size : (witnessScript version program).length = program.length + 2 := rfl
    rw [size] at fits
    rw [segwitToScript, decoded]
    rcases spendable with ⟨rfl, length⟩ | ⟨rfl, length⟩
    · have converted := (convertbits_iff small).mpr ⟨regroups, by omega⟩
      simp only [converted]
      rw [if_neg (by decide), if_neg (by simp), if_pos (by decide), if_neg (by omega),
        if_neg (by omega)]
      rfl
    · have converted := (convertbits_iff small).mpr ⟨regroups, by omega⟩
      simp only [converted]
      rw [if_neg (by decide), if_neg (by decide), if_neg (by decide), if_neg (by decide),
        if_neg (by omega), if_neg (by omega), witnessScript, length]
      rfl

theorem base58ToScript_iff : base58ToScript addr cap = .ok spk ↔
    spk.length ≤ cap ∧ ∃ ver payload, Base58Check ver payload addr ∧
      (((ver = 0x00 ∨ ver = 0x6f) ∧ spk = keyHashScript payload) ∨
        ((ver = 0x05 ∨ ver = 0xc4) ∧ spk = scriptHashScript payload)) := by
  constructor
  · intro resolved
    refine ⟨base58ToScript_le resolved, ?_⟩
    rw [base58ToScript] at resolved
    split at resolved
    next => cases resolved
    next dec decoded =>
      obtain ⟨written, _⟩ := (b58Decode_iff addr 64 dec).mp decoded
      split at resolved
      next => cases resolved
      next =>
        split at resolved
        next => cases resolved
        next checked =>
          split at resolved
          next => cases resolved
          next length =>
            rw [not_not] at checked length
            obtain ⟨ver, rest, rfl⟩ : ∃ ver rest, dec = ver :: rest := by
              cases dec with
              | nil => cases length
              | cons ver rest => exact ⟨ver, rest, rfl⟩
            have size : rest.length = 24 := by simpa using length
            have body : (ver :: rest).take ((ver :: rest).length - 4) = ver :: rest.take 20 := by
              rw [length]
              rfl
            have tail : (ver :: rest).drop ((ver :: rest).length - 4) = rest.drop 20 := by
              rw [length]
              rfl
            rw [body, tail] at checked
            have address : Base58Check ver (rest.take 20) addr := by
              refine ⟨by rw [List.length_take]; omega, ?_⟩
              rw [checked, List.cons_append, List.take_append_drop]
              exact written
            refine ⟨ver, rest.take 20, address, ?_⟩
            dsimp only [List.headD_cons, List.drop_one, List.tail_cons] at resolved
            split at resolved
            next key =>
              split at resolved
              next => cases resolved
              next =>
                cases resolved
                exact .inl ⟨key, rfl⟩
            next =>
              split at resolved
              next script =>
                split at resolved
                next => cases resolved
                next =>
                  cases resolved
                  exact .inr ⟨script, rfl⟩
              next => cases resolved
  · rintro ⟨fits, ver, payload, ⟨size, written⟩, kinds⟩
    have check : ((dsha256 (ver :: payload)).take 4).length = 4 := by
      rw [List.length_take, dsha256, sha256_length]
      rfl
    have length : (ver :: payload ++ (dsha256 (ver :: payload)).take 4).length = 25 := by
      rw [List.length_append, List.length_cons, size, check]
    have body : (ver :: payload).length = 21 := by rw [List.length_cons, size]
    have decoded := (b58Decode_iff addr 64 _).mpr ⟨written, by omega⟩
    rw [base58ToScript, decoded]
    dsimp only
    rw [length, if_neg (by decide),
      show 25 - 4 = (ver :: payload).length by omega, List.take_left, List.drop_left,
      if_neg (not_not.mpr rfl), if_neg (by decide), List.cons_append, List.headD_cons,
      List.drop_one, List.tail_cons, ← size, List.take_left]
    rcases kinds with ⟨key, rfl⟩ | ⟨script, rfl⟩
    · have room : (keyHashScript payload).length = 25 := by simp [keyHashScript, size]
      rw [if_pos key, if_neg (by omega)]
      rfl
    · have room : (scriptHashScript payload).length = 23 := by simp [scriptHashScript, size]
      have notKey : ¬(ver = 0x00 ∨ ver = 0x6f) := by rcases script with rfl | rfl <;> decide
      rw [if_neg notKey, if_pos script, if_neg (by omega)]
      rfl

/-- The prefix goes on after a network's own prefix and its separator. -/
def Longer (hrp : Bytes) : Prop := ∃ h ∈ networkHrps, h ++ [49] <+: hrp

/-- What the parser's prefixes are, and which base58 digits they could start with. -/
theorem prefixes_table :
    segwitPrefixes = networkHrps.map (· ++ [49]) ++
      networkHrps.map (fun h => (h ++ [49]).map toUpper) ∧
    (∀ h ∈ networkHrps, 49 ∉ h ∧ (∀ c ∈ h, isUpper c = false) ∧ h.any isLower = true ∧
      h.length ≤ 15) ∧
    ∀ p ∈ segwitPrefixes, p.head?.isSome = true ∧
      ∀ d < 58, p.head? = some (b58Alpha.getD d 0) → d = 10 ∨ d = 26 ∨ d = 34 ∨ d = 51 := by
  decide +kernel

theorem networkHrps_lower (member : h ∈ networkHrps) :
    49 ∉ h ∧ (∀ c ∈ h, isUpper c = false) ∧ h.any isLower = true ∧ h.length ≤ 15 :=
  prefixes_table.2.1 h member

theorem map_lower_fixed {s : Bytes} (lower : ∀ c ∈ s, isUpper c = false) : s.map toLower = s :=
  (List.map_congr_left fun c member => toLower_fixed (lower c member)).trans (List.map_id s)

theorem map_lower_upper {s : Bytes} (lower : ∀ c ∈ s, isUpper c = false) :
    (s.map toUpper).map toLower = s := by
  rw [List.map_map]
  exact (List.map_congr_left fun c member => toLower_toUpper (lower c member)).trans (List.map_id s)

/-- A string without capitals starts like an address exactly where its capitals do. -/
theorem segwit_prefixed (lower : ∀ c ∈ word, isUpper c = false)
    (cased : s = word ∨ s = word.map toUpper) :
    segwitPrefixes.any (· <+: s) = true ↔ ∃ h ∈ networkHrps, h ++ [49] <+: word := by
  rw [prefixes_table.1, List.any_append, Bool.or_eq_true, List.any_map, List.any_map,
    List.any_eq_true, List.any_eq_true]
  simp only [Function.comp_apply, decide_eq_true_eq]
  have network (h : Bytes) (member : h ∈ networkHrps) : ∀ c ∈ h ++ [49], isUpper c = false := by
    intro c here
    rcases List.mem_append.mp here with old | separator
    · exact (networkHrps_lower member).2.1 c old
    · rw [List.mem_singleton.mp separator]
      decide
  rcases cased with rfl | rfl
  · constructor
    · rintro (⟨h, member, front⟩ | ⟨h, member, front⟩)
      · exact ⟨h, member, front⟩
      · obtain ⟨_, _, letters, _⟩ := networkHrps_lower member
        obtain ⟨c, here, letter⟩ := List.any_eq_true.mp letters
        have there : toUpper c ∈ s :=
          front.subset (List.mem_map_of_mem (List.mem_append_left _ here))
        exact absurd (lower _ there) (by rw [isUpper_toUpper letter]; decide)
    · rintro ⟨h, member, front⟩
      exact .inl ⟨h, member, front⟩
  · constructor
    · rintro (⟨h, member, front⟩ | ⟨h, member, front⟩)
      · obtain ⟨_, _, letters, _⟩ := networkHrps_lower member
        obtain ⟨c, here, letter⟩ := List.any_eq_true.mp letters
        obtain ⟨d, _, rfl⟩ := List.mem_map.mp (front.subset (List.mem_append_left _ here))
        rw [isLower_toUpper] at letter
        cases letter
      · have small := front.map toLower
        rw [map_lower_upper lower, map_lower_upper (network h member)] at small
        exact ⟨h, member, small⟩
    · rintro ⟨h, member, front⟩
      exact .inr ⟨h, member, front.map toUpper⟩

/-- The parser sees the prefix of the string, not the decoded one. -/
theorem prefix_reading (h hrp back : Bytes) (absent : 49 ∉ h) :
    h ++ [49] <+: hrp ++ 49 :: back ↔ hrp = h ∨ h ++ [49] <+: hrp := by
  constructor
  · intro front
    have whole : hrp <+: hrp ++ 49 :: back := List.prefix_append hrp _
    rcases Nat.lt_trichotomy h.length hrp.length with short | same | long
    · exact .inr
        (List.prefix_of_prefix_length_le front whole (by rw [List.length_append]; exact short))
    · refine .inl ?_
      have inner := (List.prefix_append h [49]).trans front
      exact (List.prefix_of_prefix_length_le whole inner same.ge).eq_of_length same.symm
    · have separator : hrp ++ [49] <+: hrp ++ 49 :: back := ⟨back, by simp⟩
      have inner := (List.prefix_append h [49]).trans front
      have inside : hrp ++ [49] <+: h :=
        List.prefix_of_prefix_length_le separator inner (by rw [List.length_append]; exact long)
      exact absurd (inside.subset (List.mem_append_right _ (List.mem_singleton_self 49))) absent
  · rintro (rfl | front)
    · exact ⟨back, by simp⟩
    · exact front.trans (List.prefix_append hrp _)

theorem bech32_lower (word : Bech32Of hrp groups check enc) :
    ∀ c ∈ hrp ++ 49 :: bech32Text (groups ++ check), isUpper c = false := by
  have small : ∀ g ∈ groups ++ check, g < 32 := fun g member =>
    (List.mem_append.mp member).elim (word.smallGroups g) (word.smallCheck g)
  intro c member
  rcases List.mem_append.mp member with front | back
  · exact (word.printable c front).2.2
  · rcases List.mem_cons.mp back with rfl | data
    · decide
    · exact (bech32Text_lower small c data).1

theorem bech32_prefixed (word : Bech32 hrp groups enc s) :
    segwitPrefixes.any (· <+: s) = true ↔ hrp ∈ networkHrps ∨ Longer hrp := by
  obtain ⟨check, parts, cased⟩ := word
  rw [segwit_prefixed (bech32_lower parts) cased]
  constructor
  · rintro ⟨h, member, front⟩
    rcases (prefix_reading _ _ _ (networkHrps_lower member).1).mp front with rfl | longer
    · exact .inl member
    · exact .inr ⟨h, member, longer⟩
  · rintro (member | ⟨h, member, longer⟩)
    · exact ⟨hrp, member, (prefix_reading _ _ _ (networkHrps_lower member).1).mpr (.inl rfl)⟩
    · exact ⟨h, member, (prefix_reading _ _ _ (networkHrps_lower member).1).mpr (.inr longer)⟩

/-- The last separator settles the prefix. -/
theorem bech32_hrp_unique (first : Bech32 hrp groups enc s) (second : Bech32 hrp' groups' enc' s) :
    hrp = hrp' := by
  have lowered {hrp : Bytes} {groups : List Nat} {enc : Encoding} (word : Bech32 hrp groups enc s) :
      ∃ back, s.map toLower = hrp ++ 49 :: back ∧ 49 ∉ back := by
    obtain ⟨check, parts, cased⟩ := word
    have lower := bech32_lower parts
    have small : ∀ g ∈ groups ++ check, g < 32 := fun g member =>
      (List.mem_append.mp member).elim (parts.smallGroups g) (parts.smallCheck g)
    refine ⟨bech32Text (groups ++ check), ?_,
      fun member => (bech32Text_lower small 49 member).2 rfl⟩
    rcases cased with rfl | rfl
    · exact map_lower_fixed lower
    · exact map_lower_upper lower
  obtain ⟨back, whole, absent⟩ := lowered first
  obtain ⟨back', whole', absent'⟩ := lowered second
  have here := (last_separator (s.map toLower) back.length).mpr ⟨hrp, back, whole, absent, rfl⟩
  have there :=
    (last_separator (s.map toLower) back'.length).mpr ⟨hrp', back', whole', absent', rfl⟩
  have same : back.length = back'.length := Option.some.inj (here.symm.trans there)
  exact (List.append_inj' (whole.symm.trans whole') (by rw [List.length_cons, List.length_cons,
      same])).1

/-- The leading characters of segwit addresses, as digits. -/
theorem segwit_digit (small : d < 58) (front : p ∈ segwitPrefixes)
    (char : p.head? = some (b58Alpha.getD d 0)) :
    d = 10 ∨ d = 26 ∨ d = 34 ∨ d = 51 := (prefixes_table.2.2 p front).2 d small char

/-- No number of twenty-five bytes starts so, for the versions there are. -/
theorem leading_digit (digit : d = 10 ∨ d = 26 ∨ d = 34 ∨ d = 51)
    (version : v = 0x6f ∨ v = 0x05 ∨ v = 0xc4)
    (below : d * 58 ^ n < (v + 1) * 256 ^ 24) (above : v * 256 ^ 24 < (d + 1) * 58 ^ n) :
    False := by
  rcases Nat.lt_or_ge n 32 with few | more
  · have bound : 58 ^ n ≤ 58 ^ 31 := Nat.pow_le_pow_right (by decide) (by omega)
    rcases digit with rfl | rfl | rfl | rfl <;> rcases version with rfl | rfl | rfl <;> omega
  · rcases Nat.lt_or_ge n 34 with fit | many
    · interval_cases n <;> rcases digit with rfl | rfl | rfl | rfl <;>
        rcases version with rfl | rfl | rfl <;> omega
    · have bound : 58 ^ 34 ≤ 58 ^ n := Nat.pow_le_pow_right (by decide) many
      rcases digit with rfl | rfl | rfl | rfl <;> rcases version with rfl | rfl | rfl <;> omega

/-- No base58 address starts like a segwit address. -/
theorem base58_not_prefixed (version : ver = 0x00 ∨ ver = 0x6f ∨ ver = 0x05 ∨ ver = 0xc4)
    (address : Base58Check ver payload s) :
    ¬segwitPrefixes.any (· <+: s) = true := by
  obtain ⟨size, zeros, digits, rest, written⟩ := address
  rintro prefixed
  obtain ⟨p, member, front⟩ := List.any_eq_true.mp prefixed
  rw [decide_eq_true_eq] at front
  obtain ⟨c, hc⟩ : ∃ c, p.head? = some c :=
    Option.isSome_iff_exists.mp (prefixes_table.2.2 p member).1
  have head : s.head? = some c := by
    obtain ⟨tail, rfl⟩ := front
    rw [List.head?_append, hc]
    rfl
  have check : ((dsha256 (ver :: payload)).take 4).length = 4 := by
    rw [List.length_take, dsha256, sha256_length]
    rfl
  have whole := bytesValue_cons ver (payload ++ (dsha256 (ver :: payload)).take 4)
  have low := bytesValue_lt (payload ++ (dsha256 (ver :: payload)).take 4)
  rw [List.length_append, size, check] at whole low
  rw [← List.cons_append] at whole
  cases zeros with
  | succ zeros =>
    have one : b58Alpha.getD 0 0 = 49 := (b58Alpha_one (by decide)).mpr rfl
    rw [written.written, List.replicate_succ, List.cons_append, List.head?_cons] at head
    have digit := segwit_digit (d := 0) (by decide) member (by rw [hc, ← head, one])
    omega
  | zero =>
    have same := written.same
    have read := written.read
    have text := written.written
    rw [List.replicate_zero, List.nil_append] at read text
    rw [← read, whole] at same
    have nonzero : ver ≠ 0 := by
      have canonical := canonical_bytes.mp written.noZeroByte
      rw [← read, List.cons_append, List.head?_cons] at canonical
      simpa using canonical
    cases digits with
    | nil =>
      rw [text] at head
      cases head
    | cons d ds =>
      obtain ⟨first, others⟩ := List.forall_mem_cons.mp written.small
      have digit : d = 10 ∨ d = 26 ∨ d = 34 ∨ d = 51 := by
        rw [text] at head
        exact segwit_digit first member (hc.trans head.symm)
      have room : value 58 ds < 58 ^ ds.length := value_lt (by decide) others
      rw [value_cons] at same
      have bounds : d * 58 ^ ds.length < (ver.toNat + 1) * 256 ^ 24 ∧
          ver.toNat * 256 ^ 24 < (d + 1) * 58 ^ ds.length := by
        rw [Nat.succ_mul d]
        generalize 58 ^ ds.length = unit at room same ⊢
        generalize d * unit = lead at same ⊢
        omega
      have leads : ver.toNat = 0x6f ∨ ver.toNat = 0x05 ∨ ver.toNat = 0xc4 := by
        rcases version with rfl | rfl | rfl | rfl
        · exact absurd rfl nonzero
        · exact .inl rfl
        · exact .inr (.inl rfl)
        · exact .inr (.inr rfl)
      exact leading_digit digit leads bounds.1 bounds.2

/-- A segwit address of a longer prefix. -/
def LongerAddress (s script : Bytes) : Prop :=
  ∃ hrp version program, Longer hrp ∧ hrp.length ≤ 15 ∧ SegwitAddress hrp version program s ∧
  Spendable version program ∧
    script = witnessScript version program

/-- The parser accepts the addresses, and those of a longer prefix beside them. -/
theorem addressToScript_iff :
    addressToScript s cap = .ok spk ↔ spk.length ≤ cap ∧ (Denotes s spk ∨ LongerAddress s spk) := by
  rw [addressToScript]
  constructor
  · intro resolved
    refine ⟨addressToScript_le resolved, ?_⟩
    split at resolved
    next prefixed =>
      obtain ⟨_, hrp, version, program, short, address, spendable, rfl⟩ :=
        segwitToScript_iff.mp resolved
      obtain ⟨groups, word, _⟩ := id address
      rcases (bech32_prefixed word).mp prefixed with network | longer
      · exact .inl (.segwit network address spendable)
      · exact .inr ⟨hrp, version, program, longer, short, address, spendable, rfl⟩
    next =>
      obtain ⟨_, ver, payload, address, ⟨key, rfl⟩ | ⟨script, rfl⟩⟩ :=
        base58ToScript_iff.mp resolved
      · exact .inl (.keyHash key address)
      · exact .inl (.scriptHash script address)
  · rintro ⟨fits, (⟨network, address, spendable⟩ | ⟨key, address⟩ | ⟨script, address⟩) |
      ⟨hrp, version, program, longer, short, address, spendable, rfl⟩⟩
    · obtain ⟨groups, word, _⟩ := id address
      rw [if_pos ((bech32_prefixed word).mpr (.inl network))]
      exact segwitToScript_iff.mpr ⟨fits, _, _, _, (networkHrps_lower network).2.2.2, address,
        spendable, rfl⟩
    · rw [if_neg (base58_not_prefixed (by tauto) address)]
      exact base58ToScript_iff.mpr ⟨fits, _, _, address, .inl ⟨key, rfl⟩⟩
    · rw [if_neg (base58_not_prefixed (by tauto) address)]
      exact base58ToScript_iff.mpr ⟨fits, _, _, address, .inr ⟨script, rfl⟩⟩
    · obtain ⟨groups, word, _⟩ := id address
      rw [if_pos ((bech32_prefixed word).mpr (.inr longer))]
      exact segwitToScript_iff.mpr ⟨fits, hrp, version, program, short, address, spendable, rfl⟩

/-- What has a longer prefix is no address. -/
theorem longer_no_address (longer : LongerAddress s script) : ¬Denotes s script' := by
  obtain ⟨hrp, version, program, ⟨h, _, front⟩, short, address, _⟩ := longer
  obtain ⟨groups, word, _⟩ := id address
  rintro (⟨network, other, _⟩ | ⟨key, other⟩ | ⟨script, other⟩)
  · obtain ⟨groups', word', _⟩ := other
    obtain rfl := bech32_hrp_unique word word'
    exact (networkHrps_lower network).1
      (front.subset (List.mem_append_right h (List.mem_singleton_self 49)))
  · exact base58_not_prefixed (by tauto) other
      ((bech32_prefixed word).mpr (.inr ⟨h, by assumption, front⟩))
  · exact base58_not_prefixed (by tauto) other
      ((bech32_prefixed word).mpr (.inr ⟨h, by assumption, front⟩))

/-- The parser accepts the string where it is an address, for the script of that address. -/
def ParsesExactly (s : Bytes) : Prop :=
  ∀ cap spk, addressToScript s cap = .ok spk ↔ Denotes s spk ∧ spk.length ≤ cap

theorem longer_misread (longer : LongerAddress s script) : ¬ParsesExactly s := by
  intro exactly
  have accepted := addressToScript_iff.mpr ⟨le_refl script.length, .inr longer⟩
  exact longer_no_address longer ((exactly script.length script).mp accepted).1

theorem parses_exactly_iff (s : Bytes) : ParsesExactly s ↔ ¬∃ script, LongerAddress s script := by
  constructor
  · rintro exactly ⟨script, longer⟩
    exact longer_misread longer exactly
  · intro none cap spk
    rw [addressToScript_iff]
    constructor
    · rintro ⟨fits, address | longer⟩
      · exact ⟨address, fits⟩
      · exact absurd ⟨spk, longer⟩ none
    · rintro ⟨address, fits⟩
      exact ⟨fits, .inl address⟩

def longerGroups : List Nat :=
  [14, 20, 15, 7, 13, 26, 0, 25, 18, 6, 11, 13, 8, 21, 4, 20, 3, 17, 2, 29, 3, 12, 29, 3, 4, 15, 24,
    20, 6, 14, 30, 22]

def longerProgram : Bytes :=
  [0x75, 0x1e, 0x76, 0xe8, 0x19, 0x91, 0x96, 0xd4, 0x54, 0x94, 0x1c, 0x45, 0xd1, 0xb3, 0xa3, 0x23,
    0xf1, 0x43, 0x3b, 0xd6]

theorem longer_accepted : LongerAddress (ascii "bc11qw508d6qejxtdg4y5r3zarvary0c5xw7kan2muu")
      (witnessScript 0 longerProgram) := by
  have ⟨written, prefixed, printable, checksum, value, network, front⟩ :
      ascii "bc11qw508d6qejxtdg4y5r3zarvary0c5xw7kan2muu" =
        ascii "bc1" ++ 49 :: bech32Text (0 :: longerGroups ++ [29, 19, 10, 27, 28, 28]) ∧
      (ascii "bc1").length = 3 ∧ (∀ c ∈ ascii "bc1", 33 ≤ c ∧ c ≤ 126 ∧ isUpper c = false) ∧
      Bch.remainder bech32Divisor [0, 0, 0, 0, 0, 1]
        (expandHrp (ascii "bc1") ++ (0 :: longerGroups ++ [29, 19, 10, 27, 28, 28])) =
        Encoding.bech32.residue ∧
      value 32 longerGroups = bytesValue longerProgram * 2 ^ 0 ∧ ascii "bc" ∈ networkHrps ∧
      ascii "bc" ++ [49] <+: ascii "bc1" := by decide +kernel
  have word : Bech32Of (ascii "bc1") (0 :: longerGroups) [29, 19, 10, 27, 28, 28] .bech32 := by
    refine ⟨fun empty => ?_, printable, by decide, by decide, rfl, ?_, checksum⟩
    · rw [empty] at prefixed
      cases prefixed
    · rw [prefixed]
      decide
  have regroups : Regroups longerGroups longerProgram := ⟨0, by decide, by decide, value⟩
  exact ⟨ascii "bc1", 0, longerProgram, ⟨ascii "bc", network, front⟩, by rw [prefixed]; decide,
    ⟨longerGroups, ⟨_, word, .inl written⟩, regroups⟩, .inl ⟨rfl, .inl rfl⟩, rfl⟩

theorem longer_prefix_is_paid :
    ¬ParsesExactly (ascii "bc11qw508d6qejxtdg4y5r3zarvary0c5xw7kan2muu") :=
  longer_misread longer_accepted

end SimplePool.Coinbase
