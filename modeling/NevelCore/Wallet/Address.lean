import NevelCore.Wallet.Checksum
import NevelCore.Wallet.Verifier

/-!
# Addresses

The address functions of `wallet/wallet.go`, and what encoding and decoding have to do with each
other. `readSymbols_eq_ok_iff` and `writeSymbols_eq_ok_iff` are the table of characters,
`lastIndexByte_eq_some_iff` is the search for the separator, and `bech32Decode_eq_ok_iff` says which
strings are accepted, in terms of the string that encoding would give. With the regrouping of bits
and the checksum they make `address_codec`: decoding inverts encoding, and whatever is accepted is,
in lower case, the encoding of what it is decoded to.

Decoding does not look at the length of what it decodes. `lockingScript_paysKeyHash_iff` says which
addresses have a script that a key can unlock.
-/

set_option autoImplicit false
set_option relaxedAutoImplicit false

namespace NevelCore.Wallet

open Foundations

/-- `AddressFromPublicKey`. -/
def addressFromPublicKey (maps : CaseMaps) (pub hrp : List UInt8) :
    Except WalletError (List UInt8) := do
  let fiveBit ← convertBits (hash160 pub) 8 5 true
  bech32Encode maps hrp fiveBit

/-- `DecodeAddress`. -/
def decodeAddress (maps : CaseMaps) (addr expectedPrefix : List UInt8) :
    Except WalletError (List UInt8) := do
  let (hrp, data) ← bech32Decode maps addr
  if hrp ≠ expectedPrefix then .error .wrongPrefix else convertBits data 5 8 false

/-- `LockingScriptForAddress`. -/
def lockingScriptForAddress (maps : CaseMaps) (addr hrp : List UInt8) :
    Except WalletError Bytes := do
  let h ← decodeAddress maps addr hrp
  pure (.ofList (scriptForPubKeyHash h))

/-! ### Characters -/

/-- The character of a symbol. -/
def character (p : UInt8) : UInt8 := bech32Charset.getD p.toNat 0

theorem character_table : ∀ v : Fin 32, bech32Charset.getD v 0 ∈ bech32Charset ∧
    bech32Charset.idxOf (bech32Charset.getD v 0) = v := by
  decide

theorem charset_table : ∀ c ∈ bech32Charset, bech32Charset.idxOf c < 32 ∧
    bech32Charset.getD (bech32Charset.idxOf c) 0 = c ∧ c < 0x80 ∧ lowerByte c = c ∧
    c ≠ separator := by
  decide +kernel

theorem mem_charset_character {p : UInt8} (hp : p.toNat < 2 ^ 5) :
    character p ∈ bech32Charset ∧ bech32Charset.idxOf (character p) = p.toNat :=
  character_table ⟨p.toNat, hp⟩

theorem writeSymbols_eq_ok_iff {symbols characters : List UInt8} :
    writeSymbols symbols = .ok characters ↔
      InWidth 5 symbols ∧ characters = symbols.map character := by
  induction symbols generalizing characters with
  | nil =>
    rw [writeSymbols, Except.ok.injEq, List.map_nil]
    exact ⟨fun h ↦ ⟨List.forall_mem_nil _, h.symm⟩, fun h ↦ h.2.symm⟩
  | cons p symbols ih =>
    have hwidth : p ≥ 32 ↔ ¬ p.toNat < 2 ^ 5 := by
      rw [ge_iff_le, UInt8.le_iff_toNat_le, not_lt]
      rfl
    rw [writeSymbols, InWidth, List.forall_mem_cons, List.map_cons]
    split
    · next hp =>
      constructor
      · intro h
        cases h
      · intro h
        exact absurd h.1.1 (hwidth.mp hp)
    next hp =>
    have hp : p.toNat < 2 ^ 5 := not_not.mp (mt hwidth.mpr hp)
    cases hrest : writeSymbols symbols with
    | error e =>
      constructor
      · intro h
        cases h
      · intro h
        cases hrest.symm.trans (ih.mpr ⟨h.1.2, rfl⟩)
    | ok rest =>
      obtain ⟨hsymbols, rfl⟩ := ih.mp hrest
      constructor
      · intro h
        cases h
        exact ⟨⟨hp, hsymbols⟩, rfl⟩
      · rintro ⟨-, rfl⟩
        rfl

theorem readSymbols_eq_ok_iff {symbols characters : List UInt8} :
    readSymbols characters = .ok symbols ↔
      InWidth 5 symbols ∧ characters = symbols.map character := by
  induction characters generalizing symbols with
  | nil =>
    rw [readSymbols, Except.ok.injEq, eq_comm, eq_comm (a := []), List.map_eq_nil_iff]
    refine ⟨fun h ↦ ⟨?_, h⟩, And.right⟩
    rw [h]
    exact List.forall_mem_nil _
  | cons c characters ih =>
    rw [readSymbols]
    split
    · next hc =>
      obtain ⟨hlt, hback, -⟩ := charset_table c hc
      have hindex : (UInt8.ofNat (bech32Charset.idxOf c)).toNat = bech32Charset.idxOf c :=
        UInt8.toNat_ofNat_of_lt' (lt_trans hlt (by decide))
      constructor
      · intro h
        cases hrest : readSymbols characters with
        | error e =>
          rw [hrest] at h
          cases h
        | ok rest =>
          rw [hrest] at h
          cases h
          obtain ⟨hwidth, rfl⟩ := ih.mp hrest
          refine ⟨List.forall_mem_cons.mpr ⟨by rw [hindex]; exact hlt, hwidth⟩, ?_⟩
          rw [List.map_cons, character, hindex, hback]
      · rintro ⟨hwidth, hsymbols⟩
        cases symbols with
        | nil => cases hsymbols
        | cons p symbols =>
          rw [List.map_cons, List.cons.injEq] at hsymbols
          obtain ⟨rfl, hrest⟩ := hsymbols
          obtain ⟨hp, hwidth⟩ := List.forall_mem_cons.mp hwidth
          rw [ih.mpr ⟨hwidth, hrest⟩, (mem_charset_character hp).2, UInt8.ofNat_toNat]
          rfl
    · next hc =>
      refine ⟨nofun, fun ⟨hwidth, hsymbols⟩ ↦ ?_⟩
      cases symbols with
      | nil => cases hsymbols
      | cons p symbols =>
        rw [List.map_cons, List.cons.injEq] at hsymbols
        rw [hsymbols.1] at hc
        exact absurd (mem_charset_character (List.forall_mem_cons.mp hwidth).1).1 hc

/-- What holds of all characters of the table holds of a string of them. -/
theorem forall_mem_map_character {P : UInt8 → Prop} (h : ∀ c ∈ bech32Charset, P c)
    {symbols : List UInt8} (hsymbols : InWidth 5 symbols) : ∀ c ∈ symbols.map character, P c := by
  intro c hc
  obtain ⟨p, hp, rfl⟩ := List.mem_map.mp hc
  exact h _ (mem_charset_character (hsymbols p hp)).1

/-! ### The separator -/

theorem lastIndexByte_append {before after : List UInt8} {c : UInt8} (h : c ∉ after) :
    lastIndexByte (before ++ c :: after) c = some before.length := by
  have hmem : c ∈ before ++ c :: after := List.mem_append_right _ List.mem_cons_self
  have hindex : (before ++ c :: after).reverse.idxOf c = after.length := by
    rw [List.reverse_append, List.reverse_cons, List.append_assoc,
      List.idxOf_append_of_notMem (by rwa [List.mem_reverse]), List.length_reverse,
      List.singleton_append, List.idxOf_cons_self, Nat.add_zero]
  rw [lastIndexByte, if_pos hmem, hindex, List.length_append, List.length_cons]
  congr 1
  omega

theorem lastIndexByte_eq_some_iff {s : List UInt8} {c : UInt8} {pos : ℕ} :
    lastIndexByte s c = some pos ↔
      ∃ before after, s = before ++ c :: after ∧ c ∉ after ∧ before.length = pos := by
  constructor
  · intro h
    have hmem : c ∈ s := by
      by_contra hnot
      rw [lastIndexByte, if_neg hnot] at h
      cases h
    obtain ⟨after, before, hsplit, hnot⟩ := List.eq_append_cons_of_mem (List.mem_reverse.mpr hmem)
    obtain rfl : s = before.reverse ++ c :: after.reverse := by
      rw [← List.reverse_reverse s, hsplit, List.reverse_append, List.reverse_cons,
        List.append_assoc, List.singleton_append]
    have hafter : c ∉ after.reverse := by rwa [List.mem_reverse]
    rw [lastIndexByte_append hafter] at h
    exact ⟨before.reverse, after.reverse, rfl, hafter, Option.some.inj h⟩
  · rintro ⟨before, after, rfl, hnot, rfl⟩
    exact lastIndexByte_append hnot

/-! ### Which strings are accepted -/

theorem length_bech32CreateChecksum (hrp data : List UInt8) :
    (bech32CreateChecksum hrp data).length = 6 :=
  rfl

/-- What encoding puts together. -/
def addressText (hrp data : List UInt8) : List UInt8 :=
  hrp ++ separator :: (data ++ bech32CreateChecksum hrp data).map character

theorem inWidth_append {data data' : List UInt8} :
    InWidth 5 (data ++ data') ↔ InWidth 5 data ∧ InWidth 5 data' :=
  List.forall_mem_append

theorem bech32Encode_eq_ok_iff {maps : CaseMaps} {hrp data s : List UInt8} :
    bech32Encode maps hrp data = .ok s ↔ hrp ≠ [] ∧ InWidth 5 data ∧
      s = toLower maps hrp ++
        separator :: (data ++ bech32CreateChecksum hrp data).map character := by
  have hchecksum : InWidth 5 (bech32CreateChecksum hrp data) := inWidth_symbols _
  rw [bech32Encode]
  split
  · next hempty => exact ⟨nofun, fun h ↦ absurd hempty h.1⟩
  next hhrp =>
  cases hsymbols : writeSymbols (data ++ bech32CreateChecksum hrp data) with
  | error e =>
    refine ⟨nofun, fun h ↦ ?_⟩
    cases hsymbols.symm.trans
      (writeSymbols_eq_ok_iff.mpr ⟨inWidth_append.mpr ⟨h.2.1, hchecksum⟩, rfl⟩)
  | ok symbols =>
    obtain ⟨hwidth, rfl⟩ := writeSymbols_eq_ok_iff.mp hsymbols
    constructor
    · intro h
      cases h
      exact ⟨hhrp, (inWidth_append.mp hwidth).1, rfl⟩
    · rintro ⟨-, -, rfl⟩
      rfl

/-- Decoding of a string that is split at its last separator. -/
theorem bech32DecodeLower_append {before after : List UInt8} (hafter : separator ∉ after) :
    bech32DecodeLower (before ++ separator :: after) =
      if before.length = 0 ∨ after.length < 6 then .error .invalidSeparator
      else readSymbols after >>= fun data ↦
        if !bech32VerifyChecksum before data then .error .invalidChecksum
        else pure (before, data.take (data.length - 6)) := by
  have hlengths : before.length = 0 ∨ before.length + 7 > (before ++ separator :: after).length ↔
      before.length = 0 ∨ after.length < 6 := by
    rw [List.length_append, List.length_cons]
    omega
  have hdrop : (before ++ separator :: after).drop (before.length + 1) = after := by
    rw [← List.drop_drop, List.drop_left, List.drop_one, List.tail_cons]
  rw [bech32DecodeLower, lastIndexByte_append hafter]
  simp only [hlengths, List.take_left, hdrop]

theorem bech32DecodeLower_eq_ok_iff {s hrp data : List UInt8} :
    bech32DecodeLower s = .ok (hrp, data) ↔
      hrp ≠ [] ∧ InWidth 5 data ∧ s = addressText hrp data := by
  constructor
  · intro h
    cases hpos : lastIndexByte s separator with
    | none =>
      rw [bech32DecodeLower, hpos] at h
      cases h
    | some pos =>
      obtain ⟨before, after, rfl, hafter, -⟩ := lastIndexByte_eq_some_iff.mp hpos
      rw [bech32DecodeLower_append hafter] at h
      split at h
      · cases h
      next hlengths =>
      obtain ⟨hbefore, hlength⟩ := not_or.mp hlengths
      cases hsymbols : readSymbols after with
      | error e =>
        rw [hsymbols] at h
        cases h
      | ok symbols =>
        obtain ⟨hwidth, rfl⟩ := readSymbols_eq_ok_iff.mp hsymbols
        rw [hsymbols] at h
        dsimp only [bind, Except.bind, pure, Except.pure] at h
        split at h
        · cases h
        next hverify =>
        cases h
        rw [List.length_map] at hlength
        -- the last six symbols are the checksum of the others
        have hsplit := List.take_append_drop (symbols.length - 6) symbols
        rw [← hsplit] at hwidth hverify
        obtain ⟨hdata, hchecksum⟩ := inWidth_append.mp hwidth
        have hsix : (symbols.drop (symbols.length - 6)).length = 6 := by
          rw [List.length_drop]
          omega
        rw [Bool.not_eq_true', Bool.not_eq_false,
          bech32VerifyChecksum_iff hchecksum hsix] at hverify
        refine ⟨List.ne_nil_of_length_pos (Nat.pos_of_ne_zero hbefore), hdata, ?_⟩
        rw [addressText, ← hverify, hsplit]
  · rintro ⟨hhrp, hdata, rfl⟩
    have hwidth : InWidth 5 (data ++ bech32CreateChecksum hrp data) :=
      inWidth_append.mpr ⟨hdata, inWidth_symbols _⟩
    have hafter : separator ∉ (data ++ bech32CreateChecksum hrp data).map character := by
      intro hmem
      have hne := forall_mem_map_character (fun c hc ↦ (charset_table c hc).2.2.2.2) hwidth
      exact hne _ hmem rfl
    have hlength : (data ++ bech32CreateChecksum hrp data).length = data.length + 6 := by
      rw [List.length_append, length_bech32CreateChecksum]
    have hlengths : ¬ (hrp.length = 0 ∨
        ((data ++ bech32CreateChecksum hrp data).map character).length < 6) := by
      have hpos := List.length_pos_iff.mpr hhrp
      rw [List.length_map, hlength]
      omega
    have hverify : bech32VerifyChecksum hrp (data ++ bech32CreateChecksum hrp data) = true :=
      (bech32VerifyChecksum_iff (inWidth_symbols _) rfl).mpr rfl
    rw [addressText, bech32DecodeLower_append hafter, if_neg hlengths,
      readSymbols_eq_ok_iff.mpr ⟨hwidth, rfl⟩]
    dsimp only [bind, Except.bind, pure, Except.pure]
    rw [hverify, Bool.not_true, if_neg Bool.false_ne_true, hlength, Nat.add_sub_cancel,
      List.take_left]

/-- A string is accepted if and only if it is of one case and in lower case is what encoding puts
together. -/
theorem bech32Decode_eq_ok_iff {maps : CaseMaps} {s hrp data : List UInt8} :
    bech32Decode maps s = .ok (hrp, data) ↔
      (8 ≤ s.length ∧ (toLower maps s = s ∨ toUpper maps s = s)) ∧ hrp ≠ [] ∧ InWidth 5 data ∧
        toLower maps s = addressText hrp data := by
  rw [bech32Decode, ← bech32DecodeLower_eq_ok_iff]
  by_cases hform : s.length < 8 ∨ toLower maps s ≠ s ∧ toUpper maps s ≠ s
  · rw [if_pos hform]
    refine ⟨nofun, fun ⟨⟨hlength, hcase⟩, _⟩ ↦ ?_⟩
    rcases hform with hshort | ⟨hlower, hupper⟩
    · exact absurd hlength (not_le.mpr hshort)
    · exact hcase.elim (absurd · hlower) (absurd · hupper)
  · rw [if_neg hform]
    obtain ⟨hlength, hcase⟩ := not_or.mp hform
    exact (and_iff_right
      ⟨not_lt.mp hlength, (not_and_or.mp hcase).imp not_not.mp not_not.mp⟩).symm

/-! ### The codec -/

/-- A prefix that is not empty, of printable ASCII characters without upper case. -/
def LowerPrintable (hrp : List UInt8) : Prop :=
  hrp ≠ [] ∧ ∀ c ∈ hrp, 0x20 ≤ c ∧ c ≤ 0x7e ∧ ¬ (0x41 ≤ c ∧ c ≤ 0x5a)

theorem toLower_eq_self {maps : CaseMaps} {s : List UInt8}
    (h : ∀ c ∈ s, c < 0x80 ∧ lowerByte c = c) : toLower maps s = s := by
  have hascii : isAscii s = true := by
    rw [isAscii, List.all_eq_true]
    exact fun c hc ↦ decide_eq_true (h c hc).1
  rw [toLower, if_pos hascii]
  exact (List.map_congr_left fun c hc ↦ (h c hc).2).trans (List.map_id s)

theorem LowerPrintable.forall_mem {hrp : List UInt8} (h : LowerPrintable hrp) :
    ∀ c ∈ hrp, c < 0x80 ∧ lowerByte c = c := by
  intro c hc
  obtain ⟨-, hle, hcase⟩ := h.2 c hc
  refine ⟨?_, if_neg hcase⟩
  rw [UInt8.le_iff_toNat_le] at hle
  rw [UInt8.lt_iff_toNat_lt]
  exact Nat.lt_of_le_of_lt hle (by decide)

theorem toLower_addressText (maps : CaseMaps) {hrp data : List UInt8} (hhrp : LowerPrintable hrp)
    (hdata : InWidth 5 data) : toLower maps (addressText hrp data) = addressText hrp data := by
  refine toLower_eq_self (List.forall_mem_append.mpr ⟨hhrp.forall_mem, ?_⟩)
  refine List.forall_mem_cons.mpr ⟨by decide, forall_mem_map_character (fun c hc ↦ ?_)
    (inWidth_append.mpr ⟨hdata, inWidth_symbols _⟩)⟩
  obtain ⟨-, -, hascii, hlower, -⟩ := charset_table c hc
  exact ⟨hascii, hlower⟩

/-- What encoding gives for such a prefix. -/
theorem bech32Encode_eq_ok {maps : CaseMaps} {hrp data : List UInt8} (hhrp : LowerPrintable hrp)
    (hdata : InWidth 5 data) : bech32Encode maps hrp data = .ok (addressText hrp data) := by
  rw [bech32Encode_eq_ok_iff, toLower_eq_self hhrp.forall_mem]
  exact ⟨hhrp.1, hdata, rfl⟩

/-- It is accepted, and decoded to what was encoded. -/
theorem bech32Decode_addressText {maps : CaseMaps} {hrp data : List UInt8}
    (hhrp : LowerPrintable hrp) (hdata : InWidth 5 data) :
    bech32Decode maps (addressText hrp data) = .ok (hrp, data) := by
  have hlower := toLower_addressText maps hhrp hdata
  refine bech32Decode_eq_ok_iff.mpr ⟨⟨?_, .inl hlower⟩, hhrp.1, hdata, hlower⟩
  have hpos := List.length_pos_iff.mpr hhrp.1
  simp only [addressText, List.length_append, List.length_cons, List.length_map,
    length_bech32CreateChecksum]
  omega

/-- An address is decoded to a byte string if and only if it is of one case, long enough and in
lower case the text of the regrouped bytes. -/
theorem decodeAddress_eq_ok_iff {maps : CaseMaps} {addr hrp p : List UInt8} :
    decodeAddress maps addr hrp = .ok p ↔
      ∃ symbols, bech32Decode maps addr = .ok (hrp, symbols) ∧
        convertBits p 8 5 true = .ok symbols := by
  rw [decodeAddress]
  cases hdecode : bech32Decode maps addr with
  | error e => exact ⟨nofun, fun ⟨_, h, _⟩ ↦ nomatch h⟩
  | ok parts =>
    obtain ⟨hrp', symbols⟩ := parts
    dsimp only [bind, Except.bind]
    split
    · next hne =>
      refine ⟨nofun, fun ⟨_, h, _⟩ ↦ ?_⟩
      cases h
      exact absurd rfl hne
    · next heq =>
      obtain rfl := not_not.mp heq
      rw [← convertBits_inverse]
      constructor
      · exact fun h ↦ ⟨symbols, rfl, h⟩
      · rintro ⟨symbols', h, hconvert⟩
        cases h
        exact hconvert

/-- The encoding of a byte string is decoded to it. -/
theorem exists_address (maps : CaseMaps) {hrp : List UInt8} (hhrp : LowerPrintable hrp)
    (p : List UInt8) :
    ∃ symbols, convertBits p 8 5 true = .ok symbols ∧
      bech32Encode maps hrp symbols = .ok (addressText hrp symbols) ∧
      decodeAddress maps (addressText hrp symbols) hrp = .ok p := by
  obtain ⟨symbols, hconvert, hwidth⟩ := exists_convertBits p
  exact ⟨symbols, hconvert, bech32Encode_eq_ok hhrp hwidth,
    decodeAddress_eq_ok_iff.mpr ⟨symbols, bech32Decode_addressText hhrp hwidth, hconvert⟩⟩

/-- With a prefix of printable characters without upper case, every byte string has an address that
is decoded to it, in particular the hash of every public key. Whatever is accepted and decoded is in
lower case the address of what it is decoded to. -/
theorem address_codec (maps : CaseMaps) {hrp : List UInt8} (hhrp : LowerPrintable hrp) :
    (∀ p : List UInt8, ∃ symbols s, convertBits p 8 5 true = .ok symbols ∧
      bech32Encode maps hrp symbols = .ok s ∧ decodeAddress maps s hrp = .ok p) ∧
    (∀ pub : List UInt8, ∃ s, addressFromPublicKey maps pub hrp = .ok s ∧
      decodeAddress maps s hrp = .ok (hash160 pub)) ∧
    ∀ s p : List UInt8, decodeAddress maps s hrp = .ok p →
      ∃ symbols, convertBits p 8 5 true = .ok symbols ∧
        bech32Encode maps hrp symbols = .ok (toLower maps s) := by
  refine ⟨fun p ↦ ?_, fun pub ↦ ?_, fun s p hdecode ↦ ?_⟩
  · obtain ⟨symbols, hconvert, hencode, hdecode⟩ := exists_address maps hhrp p
    exact ⟨symbols, _, hconvert, hencode, hdecode⟩
  · obtain ⟨symbols, hconvert, hencode, hdecode⟩ := exists_address maps hhrp (hash160 pub)
    exact ⟨_, by rw [addressFromPublicKey, hconvert]; exact hencode, hdecode⟩
  · obtain ⟨symbols, hbech, hconvert⟩ := decodeAddress_eq_ok_iff.mp hdecode
    obtain ⟨-, -, hwidth, hlower⟩ := bech32Decode_eq_ok_iff.mp hbech
    exact ⟨symbols, hconvert, by rw [hlower, bech32Encode_eq_ok hhrp hwidth]⟩

namespace Sample

/-- The prefix of the main network. -/
def nevel : List UInt8 := [0x6e, 0x65, 0x76, 0x65, 0x6c]

theorem lowerPrintable_nevel : LowerPrintable nevel := ⟨by simp [nevel], by simp [nevel]⟩

end Sample

theorem address_codec_sample :
    ∃ s, addressFromPublicKey Sample.asciiMaps [] Sample.nevel = .ok s ∧
      decodeAddress Sample.asciiMaps s Sample.nevel = .ok (hash160 []) :=
  (address_codec Sample.asciiMaps Sample.lowerPrintable_nevel).2.1 []

/-! ### Scripts of addresses -/

/-- The script is `p2pkh:` and as many bytes as `Hash160` has. -/
def PaysKeyHash (script : Bytes) : Prop :=
  ∃ p : List UInt8, script.toList = scriptForPubKeyHash p ∧ p.length = 20

theorem length_hash160 (pub : List UInt8) : (hash160 pub).length = 20 := by
  rw [hash160, length_ripemd160Digest]

theorem paysKeyHash_ofList_iff {p : List UInt8} :
    PaysKeyHash (.ofList (scriptForPubKeyHash p)) ↔ p.length = 20 := by
  have hmark : scriptMark.length = 6 := by decide +kernel
  have hlength (q : List UInt8) : (scriptForPubKeyHash q).length = 6 + q.length := by
    rw [scriptForPubKeyHash, List.length_append, hmark]
  constructor
  · rintro ⟨q, hscript, hq⟩
    have hcount := congrArg List.length hscript
    rw [Slice.ofList, List.length_take, hlength, hlength] at hcount
    omega
  · intro hp
    refine ⟨p, Slice.toList_ofList ?_, hp⟩
    rw [hlength, hp]
    decide

/-- A script of another form is never unlocked. -/
theorem verifyTransactionInput_of_not_paysKeyHash {script : Bytes} (h : ¬ PaysKeyHash script)
    (t : Transaction) (inputIndex : ℤ) :
    verifyTransactionInput t inputIndex script = pure false := by
  rcases verifyTransactionInput_cases t inputIndex script with ⟨input, q, hpresents⟩ | hrefuses
  · exact absurd ⟨_, hpresents.script_eq, length_hash160 _⟩ h
  · exact hrefuses

/-- The address of a byte string is as long as its symbols ask for. -/
theorem length_of_decodeAddress {maps : CaseMaps} {addr hrp p : List UInt8}
    (h : decodeAddress maps addr hrp = .ok p) :
    ∃ rest < 5, ((toLower maps addr).length - (hrp.length + 7)) * 5 = p.length * 8 + rest ∧
      hrp.length + 7 ≤ (toLower maps addr).length := by
  obtain ⟨symbols, hdecode, hconvert⟩ := decodeAddress_eq_ok_iff.mp h
  obtain ⟨-, -, -, htext⟩ := bech32Decode_eq_ok_iff.mp hdecode
  obtain ⟨rest, hrest, hpads⟩ := (convertBits_pad_iff (by decide) (by decide)).mp hconvert
  have hlength : (toLower maps addr).length = hrp.length + 7 + symbols.length := by
    rw [htext, addressText]
    simp only [List.length_append, List.length_cons, List.length_map, length_bech32CreateChecksum]
    omega
  refine ⟨rest, hrest, ?_, by omega⟩
  rw [hlength, Nat.add_sub_cancel_left]
  exact hpads.length_eq

/-- The script of an accepted address has the form that can be unlocked if and only if the address
has 39 characters behind its prefix: the separator, 32 symbols and the checksum. The script of any
other accepted address is never unlocked. -/
theorem lockingScript_paysKeyHash_iff {maps : CaseMaps} {addr hrp : List UInt8} {script : Bytes}
    (h : lockingScriptForAddress maps addr hrp = .ok script) :
    (PaysKeyHash script ↔ (toLower maps addr).length = hrp.length + 39) ∧
      ((toLower maps addr).length ≠ hrp.length + 39 → ∀ t inputIndex,
        verifyTransactionInput t inputIndex script = pure false) := by
  have hiff : PaysKeyHash script ↔ (toLower maps addr).length = hrp.length + 39 := by
    rw [lockingScriptForAddress] at h
    cases hdecode : decodeAddress maps addr hrp with
    | error e =>
      rw [hdecode] at h
      cases h
    | ok p =>
      rw [hdecode] at h
      cases h
      obtain ⟨rest, hrest, hlength, hle⟩ := length_of_decodeAddress hdecode
      rw [paysKeyHash_ofList_iff]
      omega
  refine ⟨hiff, fun hlength ↦ ?_⟩
  exact verifyTransactionInput_of_not_paysKeyHash fun hpays ↦ hlength (hiff.mp hpays)

namespace Sample

/-- The address without data of the main network is `nevel1zykjrj`. -/
theorem addressText_nevel :
    addressText nevel [] = nevel ++ separator :: [0x7a, 0x79, 0x6b, 0x6a, 0x72, 0x6a] := by
  decide +kernel

theorem bech32Decode_nevel :
    bech32Decode asciiMaps (nevel ++ separator :: [0x7a, 0x79, 0x6b, 0x6a, 0x72, 0x6a]) =
      .ok (nevel, []) := by
  rw [← addressText_nevel]
  exact bech32Decode_addressText lowerPrintable_nevel (List.forall_mem_nil _)

theorem toLower_nevel :
    toLower asciiMaps (nevel ++ separator :: [0x7a, 0x79, 0x6b, 0x6a, 0x72, 0x6a]) =
      nevel ++ separator :: [0x7a, 0x79, 0x6b, 0x6a, 0x72, 0x6a] := by
  rw [← addressText_nevel]
  exact toLower_addressText _ lowerPrintable_nevel (List.forall_mem_nil _)

theorem lockingScript_nevel :
    lockingScriptForAddress asciiMaps
        (nevel ++ separator :: [0x7a, 0x79, 0x6b, 0x6a, 0x72, 0x6a]) nevel =
      .ok (.ofList (scriptForPubKeyHash [])) := by
  have hdecode : decodeAddress asciiMaps
      (nevel ++ separator :: [0x7a, 0x79, 0x6b, 0x6a, 0x72, 0x6a]) nevel = .ok [] :=
    decodeAddress_eq_ok_iff.mpr ⟨[], bech32Decode_nevel, rfl⟩
  rw [lockingScriptForAddress, hdecode]
  rfl

end Sample

/-- The script of `nevel1zykjrj` is never unlocked. -/
theorem lockingScript_paysKeyHash_sample :
    lockingScriptForAddress Sample.asciiMaps
        (Sample.nevel ++ separator :: [0x7a, 0x79, 0x6b, 0x6a, 0x72, 0x6a]) Sample.nevel =
      .ok (.ofList (scriptForPubKeyHash [])) ∧
      ∀ t inputIndex,
        verifyTransactionInput t inputIndex (.ofList (scriptForPubKeyHash [])) = pure false := by
  refine ⟨Sample.lockingScript_nevel,
    (lockingScript_paysKeyHash_iff Sample.lockingScript_nevel).2 ?_⟩
  rw [Sample.toLower_nevel]
  decide

/-- The string `nevel1zykjrj` is an accepted address without a key hash. -/
theorem lockingScript_without_hash :
    lockingScriptForAddress Sample.asciiMaps
        (Sample.nevel ++ separator :: [0x7a, 0x79, 0x6b, 0x6a, 0x72, 0x6a]) Sample.nevel =
      .ok (.ofList (scriptForPubKeyHash [])) ∧
      ¬ PaysKeyHash (.ofList (scriptForPubKeyHash [])) := by
  refine ⟨Sample.lockingScript_nevel, ?_⟩
  rw [paysKeyHash_ofList_iff]
  decide

end NevelCore.Wallet
