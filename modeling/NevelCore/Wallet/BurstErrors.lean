import NevelCore.Wallet.Address

/-!
# Burst errors in addresses

What the checksum of an address detects. One step of the register of `bech32Polymod` loses nothing
of a register of thirty bits (`polymodStep_injective`): the lowest bits of the generators tell which
of them were added. So registers that differ stay apart, whatever symbols follow. Up to six symbols
on the other hand are told apart by what they make of the same register (`eq_of_foldl_eq`).
Together, two accepted strings that agree outside of six characters in a row are the same
(`eq_of_agree_outside`), and `burst_detected` says this of the positions in which two strings
differ.
-/

set_option autoImplicit false
set_option relaxedAutoImplicit false

namespace NevelCore.Wallet

open Foundations

/-! ### One step -/

/-- The sum of the generators that five bits pick. -/
def pickedSum (top : UInt32) : UInt32 :=
  generators.zipIdx.foldr
    (fun pair sum ↦ (if (top >>> UInt32.ofNat pair.2) &&& 1 = 1 then pair.1 else 0) ^^^ sum) 0

theorem feedback_eq_pickedSum (c : UInt32) : feedback c = pickedSum (c >>> 25) := rfl

/-- The lowest five bits of such a sum are zero only for the empty sum. -/
theorem pickedSum_table : ∀ top : Fin 32, pickedSum (UInt32.ofNat top) &&& 31 = 0 → top = 0 := by
  decide

/-- Only the empty register is emptied by a step with the symbol zero. -/
theorem eq_zero_of_polymodStep {c : UInt32} (hc : c.toNat < 2 ^ 30) (h : polymodStep c 0 = 0) :
    c = 0 := by
  have hfeedback : feedback c = (c &&& 0x1ffffff) <<< 5 := by
    rw [polymodStep_eq] at h
    have hzero : ((0 : UInt8).toUInt32) = 0 := rfl
    rw [hzero, UInt32.xor_zero] at h
    exact (UInt32.xor_eq_zero_iff.mp h).symm
  have htop : (c >>> 25).toNat < 32 := by
    rw [UInt32.toNat_shiftRight]
    change c.toNat >>> 25 < 32
    rw [Nat.shiftRight_eq_div_pow]
    omega
  have hlow : pickedSum (c >>> 25) &&& 31 = 0 := by
    rw [← feedback_eq_pickedSum, hfeedback, ← UInt32.toNat_inj, UInt32.toNat_and,
      UInt32.toNat_shiftLeft]
    change (c &&& 0x1ffffff).toNat <<< 5 % 2 ^ 32 &&& (2 ^ 5 - 1) = 0
    rw [Nat.and_two_pow_sub_one_eq_mod, Nat.shiftLeft_eq]
    omega
  -- no generator was added, so the register was only shifted
  have hempty : c >>> 25 = 0 := by
    have htable := pickedSum_table ⟨(c >>> 25).toNat, htop⟩
    rw [UInt32.ofNat_toNat] at htable
    have hvalue : (c >>> 25).toNat = 0 := congrArg Fin.val (htable hlow)
    exact UInt32.toNat_inj.mp hvalue
  have hsmall : c.toNat < 2 ^ 25 := by
    have hshift := congrArg UInt32.toNat hempty
    rw [UInt32.toNat_shiftRight] at hshift
    change c.toNat >>> 25 = 0 at hshift
    rw [Nat.shiftRight_eq_div_pow] at hshift
    omega
  have hvalue := toNat_polymodStep_of_lt hsmall (show (0 : UInt8).toNat < 2 ^ 5 by decide)
  rw [h] at hvalue
  change 0 = 2 ^ 5 * c.toNat + 0 at hvalue
  exact UInt32.toNat_inj.mp (show c.toNat = 0 by omega)

/-- A step with some symbol keeps registers of thirty bits apart. -/
theorem polymodStep_injective {a b : UInt32} (ha : a.toNat < 2 ^ 30) (hb : b.toNat < 2 ^ 30)
    {v : UInt8} (h : polymodStep a v = polymodStep b v) : a = b := by
  have hsum := polymodStep_xor a b v v
  rw [h, UInt32.xor_self, UInt8.xor_self] at hsum
  have hlt : (a ^^^ b).toNat < 2 ^ 30 := by
    rw [UInt32.toNat_xor]
    exact Nat.xor_lt_two_pow ha hb
  exact UInt32.xor_eq_zero_iff.mp (eq_zero_of_polymodStep hlt hsum)

/-! ### Words -/

theorem foldl_polymodStep_injective {symbols : List UInt8} (hsymbols : InWidth 5 symbols)
    {a b : UInt32} (ha : a.toNat < 2 ^ 30) (hb : b.toNat < 2 ^ 30)
    (h : symbols.foldl polymodStep a = symbols.foldl polymodStep b) : a = b := by
  induction symbols generalizing a b with
  | nil => exact h
  | cons v symbols ih =>
    obtain ⟨hv, hrest⟩ := List.forall_mem_cons.mp hsymbols
    exact polymodStep_injective ha hb (ih hrest (polymodStep_lt a hv) (polymodStep_lt b hv) h)

theorem foldl_polymodStep_lt {symbols : List UInt8} (hsymbols : InWidth 5 symbols)
    (hne : symbols ≠ []) (c : UInt32) : (symbols.foldl polymodStep c).toNat < 2 ^ 30 := by
  induction symbols using List.reverseRecOn with
  | nil => exact absurd rfl hne
  | append_singleton symbols v _ =>
    rw [List.foldl_append]
    exact polymodStep_lt _ (inWidth_append_singleton.mp hsymbols).2

/-- Up to six symbols are determined by what they make of a register. -/
theorem eq_of_foldl_eq {u u' : List UInt8} (hu : InWidth 5 u) (hu' : InWidth 5 u')
    (hlength : u.length = u'.length) (hsix : u.length ≤ 6) {c : UInt32}
    (h : u.foldl polymodStep c = u'.foldl polymodStep c) : u = u' := by
  rw [foldl_polymodStep_zeros u, foldl_polymodStep_zeros u', hlength, UInt32.xor_right_inj] at h
  refine eq_of_groupsValue_eq hu hu' hlength ?_
  rw [← toNat_foldl_polymodStep hu hsix, ← toNat_foldl_polymodStep hu' (hlength ▸ hsix), h]

/-- Two words that make the same of a register and agree outside of a window of up to six symbols
are the same. -/
theorem eq_of_window {before u u' after : List UInt8} (hu : InWidth 5 u) (hu' : InWidth 5 u')
    (hafter : InWidth 5 after) (hlength : u.length = u'.length) (hsix : u.length ≤ 6) {c : UInt32}
    (h : (before ++ u ++ after).foldl polymodStep c = (before ++ u' ++ after).foldl polymodStep c) :
    u = u' := by
  by_cases hnil : u = []
  · rw [hnil, List.length_nil] at hlength
    rw [hnil, List.eq_nil_of_length_eq_zero hlength.symm]
  · have hnil' : u' ≠ [] := by
      rintro rfl
      exact hnil (List.eq_nil_of_length_eq_zero hlength)
    simp only [List.foldl_append] at h
    exact eq_of_foldl_eq hu hu' hlength hsix (foldl_polymodStep_injective hafter
      (foldl_polymodStep_lt hu hnil _) (foldl_polymodStep_lt hu' hnil' _) h)

/-! ### Strings -/

theorem eq_of_map_character {symbols symbols' : List UInt8} (h : InWidth 5 symbols)
    (h' : InWidth 5 symbols') (heq : symbols.map character = symbols'.map character) :
    symbols = symbols' := by
  have hread := readSymbols_eq_ok_iff.mpr ⟨h, heq.symm⟩
  rw [readSymbols_eq_ok_iff.mpr ⟨h', rfl⟩] at hread
  exact (Except.ok.inj hread).symm

/-- An accepted string in lower case is its prefix, the separator and the characters of a word with
a valid checksum. -/
theorem exists_symbols {maps : CaseMaps} {s hrp data : List UInt8} (hlower : toLower maps s = s)
    (h : bech32Decode maps s = .ok (hrp, data)) :
    ∃ symbols, s = hrp ++ separator :: symbols.map character ∧ InWidth 5 symbols ∧
      bech32VerifyChecksum hrp symbols = true := by
  obtain ⟨-, -, hdata, htext⟩ := bech32Decode_eq_ok_iff.mp h
  rw [hlower] at htext
  exact ⟨_, htext, inWidth_append.mpr ⟨hdata, inWidth_symbols _⟩,
    (bech32VerifyChecksum_iff (inWidth_symbols _) rfl).mpr rfl⟩

/-- Two words with valid checksums that agree outside of six symbols in a row are the same. -/
theorem eq_of_agree_outside {hrp w w' : List UInt8} (hw : InWidth 5 w) (hw' : InWidth 5 w')
    (hverify : bech32VerifyChecksum hrp w = true) (hverify' : bech32VerifyChecksum hrp w' = true)
    (hlength : w.length = w'.length) {i : ℕ} (hbefore : w.take i = w'.take i)
    (hafter : w.drop (i + 6) = w'.drop (i + 6)) : w = w' := by
  have hsplit (l : List UInt8) : l.take i ++ (l.drop i).take 6 ++ l.drop (i + 6) = l := by
    rw [List.append_assoc, ← List.drop_drop, List.take_append_drop, List.take_append_drop]
  have hregister : w.foldl polymodStep (bech32Polymod (bech32HrpExpand hrp)) =
      w'.foldl polymodStep (bech32Polymod (bech32HrpExpand hrp)) := by
    rw [bech32VerifyChecksum, decide_eq_true_iff, bech32Polymod_append] at hverify hverify'
    rw [hverify, hverify']
  have hinside : (w.drop i).take 6 = (w'.drop i).take 6 := by
    rw [← hsplit w, ← hsplit w', ← hbefore, ← hafter] at hregister
    refine eq_of_window (fun v hv ↦ hw v ?_) (fun v hv ↦ hw' v ?_) (fun v hv ↦ hw v ?_) ?_ ?_
      hregister
    · exact List.mem_of_mem_drop (List.mem_of_mem_take hv)
    · exact List.mem_of_mem_drop (List.mem_of_mem_take hv)
    · exact List.mem_of_mem_drop hv
    · rw [List.length_take, List.length_take, List.length_drop, List.length_drop, hlength]
    · exact List.length_take_le _ _
  rw [← hsplit w, ← hsplit w', hbefore, hinside, hafter]

theorem getElem?_text (hrp characters : List UInt8) (k : ℕ) :
    (hrp ++ separator :: characters)[hrp.length + 1 + k]? = characters[k]? := by
  rw [List.getElem?_append_right (by omega)]
  have hindex : hrp.length + 1 + k - hrp.length = k + 1 := by omega
  rw [hindex, List.getElem?_cons_succ]

/-- Two different accepted strings with the same prefix differ in two positions that are at least
six apart. -/
theorem exists_far_apart {hrp w w' : List UInt8} (hw : InWidth 5 w) (hw' : InWidth 5 w')
    (hverify : bech32VerifyChecksum hrp w = true) (hverify' : bech32VerifyChecksum hrp w' = true)
    (hlength : w.length = w'.length) (hne : w ≠ w') :
    ∃ i j : ℕ, i + 6 ≤ j ∧ (w.map character)[i]? ≠ (w'.map character)[i]? ∧
      (w.map character)[j]? ≠ (w'.map character)[j]? := by
  by_contra hnone
  have hdiffer : ∃ i : ℕ, (w.map character)[i]? ≠ (w'.map character)[i]? := by
    by_contra hsame
    push Not at hsame
    exact hne (eq_of_map_character hw hw' (List.ext_getElem? hsame))
  -- the window starts at the first difference
  classical
  let i := Nat.find hdiffer
  have hbefore : (w.map character).take i = (w'.map character).take i := by
    refine List.ext_getElem? fun k ↦ ?_
    by_cases hk : k < i
    · rw [List.getElem?_take_of_lt hk, List.getElem?_take_of_lt hk]
      exact not_not.mp (Nat.find_min hdiffer hk)
    · rw [List.getElem?_take_eq_none (not_lt.mp hk), List.getElem?_take_eq_none (not_lt.mp hk)]
  have hafter : (w.map character).drop (i + 6) = (w'.map character).drop (i + 6) := by
    refine List.ext_getElem? fun k ↦ ?_
    rw [List.getElem?_drop, List.getElem?_drop]
    by_contra hk
    exact hnone ⟨i, i + 6 + k, Nat.le_add_right _ _, Nat.find_spec hdiffer, hk⟩
  rw [← List.map_take, ← List.map_take] at hbefore
  rw [← List.map_drop, ← List.map_drop] at hafter
  refine hne (eq_of_agree_outside hw hw' hverify hverify' hlength
    (eq_of_map_character (fun v hv ↦ hw v (List.mem_of_mem_take hv))
      (fun v hv ↦ hw' v (List.mem_of_mem_take hv)) hbefore)
    (eq_of_map_character (fun v hv ↦ hw v (List.mem_of_mem_drop hv))
      (fun v hv ↦ hw' v (List.mem_of_mem_drop hv)) hafter))

/-- Strings that agree outside of a window differ only inside. -/
theorem window_of_ne {before u u' after : List UInt8} (hlength : u.length = u'.length) {i : ℕ}
    (h : (before ++ u ++ after)[i]? ≠ (before ++ u' ++ after)[i]?) :
    before.length ≤ i ∧ i < before.length + u.length := by
  constructor
  · by_contra hi
    refine h ?_
    rw [List.append_assoc, List.append_assoc, List.getElem?_append_left (not_le.mp hi),
      List.getElem?_append_left (not_le.mp hi)]
  · by_contra hi
    refine h ?_
    have hend : (before ++ u).length ≤ i := by
      rw [List.length_append]
      exact not_lt.mp hi
    have hend' : (before ++ u').length ≤ i := by
      rwa [List.length_append, ← hlength, ← List.length_append]
    rw [List.getElem?_append_right hend, List.getElem?_append_right hend', List.length_append,
      List.length_append, hlength]

/-! ### Lower case -/

/-- `ToLower` treats ASCII characters behind a string on their own, as the standard library does,
which goes through a string character by character. -/
def CaseMaps.LowersAscii (maps : CaseMaps) : Prop :=
  ∀ s t : List UInt8, isAscii t = true → toLower maps (s ++ t) = toLower maps s ++ t.map lowerByte

/-- A string behind whose prefix only characters of the table stand is in lower case if and only if
the prefix is. -/
theorem toLower_text_iff {maps : CaseMaps} (hmaps : maps.LowersAscii) {hrp characters : List UInt8}
    (hcharacters : ∀ c ∈ characters, c ∈ bech32Charset) :
    toLower maps (hrp ++ separator :: characters) = hrp ++ separator :: characters ↔
      toLower maps hrp = hrp := by
  have htable : ∀ c ∈ separator :: characters, c < 0x80 ∧ lowerByte c = c := by
    refine List.forall_mem_cons.mpr ⟨by decide, fun c hc ↦ ?_⟩
    obtain ⟨-, -, hascii, hlower, -⟩ := charset_table c (hcharacters c hc)
    exact ⟨hascii, hlower⟩
  have hascii : isAscii (separator :: characters) = true := by
    rw [isAscii, List.all_eq_true]
    exact fun c hc ↦ decide_eq_true (htable c hc).1
  have hmap : (separator :: characters).map lowerByte = separator :: characters :=
    (List.map_congr_left fun c hc ↦ (htable c hc).2).trans (List.map_id _)
  rw [hmaps _ _ hascii, hmap, List.append_left_inj]

/-- A string can be split at its last separator in one way only. -/
theorem hrp_unique {hrp hrp' characters characters' : List UInt8} (h : separator ∉ characters)
    (h' : separator ∉ characters')
    (heq : hrp ++ separator :: characters = hrp' ++ separator :: characters') :
    hrp = hrp' ∧ characters = characters' := by
  have hindex : lastIndexByte (hrp ++ separator :: characters) separator = some hrp.length :=
    lastIndexByte_append h
  rw [heq, lastIndexByte_append h'] at hindex
  obtain ⟨hhrp, hrest⟩ := List.append_inj heq (Option.some.inj hindex).symm
  exact ⟨hhrp, (List.cons.inj hrest).2⟩

theorem separator_notMem {characters : List UInt8}
    (hcharacters : ∀ c ∈ characters, c ∈ bech32Charset) : separator ∉ characters := by
  intro hmem
  exact (charset_table _ (hcharacters _ hmem)).2.2.2.2 rfl

theorem forall_mem_charset {symbols : List UInt8} (hsymbols : InWidth 5 symbols) :
    ∀ c ∈ symbols.map character, c ∈ bech32Charset :=
  forall_mem_map_character (fun _ hc ↦ hc) hsymbols

/-- What stands behind the prefix and the separator of an accepted string. -/
theorem exists_symbols_of_split {maps : CaseMaps} {s hrp data characters : List UInt8}
    (hlower : toLower maps s = s) (h : bech32Decode maps s = .ok (hrp, data))
    (hs : s = hrp ++ separator :: characters) :
    ∃ symbols, symbols.map character = characters ∧ InWidth 5 symbols ∧
      bech32VerifyChecksum hrp symbols = true := by
  obtain ⟨w, htext, hw, hverify⟩ := exists_symbols hlower h
  rw [htext, List.append_cancel_left_eq, List.cons.injEq] at hs
  exact ⟨w, hs.2, hw, hverify⟩

/-- Other characters of the table in place of up to six characters in a row are not accepted. -/
theorem rejected_of_window {maps : CaseMaps} (hmaps : maps.LowersAscii) {s hrp data : List UInt8}
    (hlower : toLower maps s = s) (h : bech32Decode maps s = .ok (hrp, data))
    {before u u' after : List UInt8} (hs : s = hrp ++ separator :: (before ++ u ++ after))
    (hu' : ∀ c ∈ u', c ∈ bech32Charset) (hlength : u.length = u'.length) (hsix : u.length ≤ 6)
    (hne : u ≠ u') :
    ∃ e, bech32Decode maps (hrp ++ separator :: (before ++ u' ++ after)) = .error e := by
  obtain ⟨w, hcharacters, hw, hverify⟩ := exists_symbols_of_split hlower h hs
  have htable : ∀ c ∈ before ++ u ++ after, c ∈ bech32Charset := by
    rw [← hcharacters]
    exact forall_mem_charset hw
  have htable' : ∀ c ∈ before ++ u' ++ after, c ∈ bech32Charset := by
    simp only [List.mem_append] at htable ⊢
    rintro c ((hc | hc) | hc)
    · exact htable c (.inl (.inl hc))
    · exact hu' c hc
    · exact htable c (.inr hc)
  have hlower' : toLower maps (hrp ++ separator :: (before ++ u' ++ after)) =
      hrp ++ separator :: (before ++ u' ++ after) := by
    rw [hs, toLower_text_iff hmaps htable] at hlower
    exact (toLower_text_iff hmaps htable').mpr hlower
  cases hdecode : bech32Decode maps (hrp ++ separator :: (before ++ u' ++ after)) with
  | error e => exact ⟨e, rfl⟩
  | ok parts =>
    obtain ⟨hrp', data'⟩ := parts
    obtain ⟨w', htext', hw', hverify'⟩ := exists_symbols hlower' hdecode
    obtain ⟨rfl, hcharacters'⟩ := hrp_unique (separator_notMem htable')
      (separator_notMem (forall_mem_charset hw')) htext'
    have hlengths : w.length = w'.length := by
      have hcount := congrArg List.length hcharacters
      have hcount' := congrArg List.length hcharacters'
      simp only [List.length_map, List.length_append] at hcount hcount'
      omega
    have hdiffer : w ≠ w' := by
      rintro rfl
      rw [hcharacters, List.append_left_inj, List.append_right_inj] at hcharacters'
      exact hne hcharacters'.symm
    obtain ⟨i, j, hij, hi, hj⟩ := exists_far_apart hw hw' hverify hverify' hlengths hdiffer
    rw [hcharacters, ← hcharacters'] at hi hj
    have hstart := (window_of_ne hlength hi).1
    have hend := (window_of_ne hlength hj).2
    omega

/-- Two different accepted strings in lower case, of the same length and with the same prefix,
differ in two positions that are at least six apart, so that the differences span more than six
characters. In particular a character behind the separator can not be replaced by another one of the
table, nor can two adjacent different ones be swapped. -/
theorem burst_detected {maps : CaseMaps} (hmaps : maps.LowersAscii) {s hrp data : List UInt8}
    (hlower : toLower maps s = s) (h : bech32Decode maps s = .ok (hrp, data)) :
    (∀ s' data' : List UInt8, toLower maps s' = s' → bech32Decode maps s' = .ok (hrp, data') →
      s'.length = s.length → s' ≠ s →
        ∃ i j : ℕ, i + 6 ≤ j ∧ s[i]? ≠ s'[i]? ∧ s[j]? ≠ s'[j]?) ∧
    (∀ (before after : List UInt8) (x y : UInt8),
      s = hrp ++ separator :: (before ++ x :: after) → y ∈ bech32Charset → y ≠ x →
        ∃ e, bech32Decode maps (hrp ++ separator :: (before ++ y :: after)) = .error e) ∧
    ∀ (before after : List UInt8) (x y : UInt8),
      s = hrp ++ separator :: (before ++ x :: y :: after) → x ≠ y →
        ∃ e, bech32Decode maps (hrp ++ separator :: (before ++ y :: x :: after)) = .error e := by
  refine ⟨fun s' data' hlower' h' hlength hne ↦ ?_, fun before after x y hs hy hne ↦ ?_,
    fun before after x y hs hne ↦ ?_⟩
  · obtain ⟨w, rfl, hw, hverify⟩ := exists_symbols hlower h
    obtain ⟨w', rfl, hw', hverify'⟩ := exists_symbols hlower' h'
    have hlengths : w.length = w'.length := by
      simp only [List.length_append, List.length_cons, List.length_map] at hlength
      omega
    have hdiffer : w ≠ w' := by
      rintro rfl
      exact hne rfl
    obtain ⟨i, j, hij, hi, hj⟩ := exists_far_apart hw hw' hverify hverify' hlengths hdiffer
    refine ⟨hrp.length + 1 + i, hrp.length + 1 + j, by omega, ?_, ?_⟩
    · rwa [getElem?_text, getElem?_text]
    · rwa [getElem?_text, getElem?_text]
  · have hs' : s = hrp ++ separator :: (before ++ [x] ++ after) := by
      rw [hs, List.append_assoc]
      rfl
    have hrejected := rejected_of_window hmaps hlower h hs' (List.forall_mem_singleton.mpr hy) rfl
      (by simp) fun heq ↦ hne (List.cons.inj heq).1.symm
    rwa [List.append_assoc] at hrejected
  · have hs' : s = hrp ++ separator :: (before ++ [x, y] ++ after) := by
      rw [hs, List.append_assoc]
      rfl
    obtain ⟨w, hcharacters, hw, -⟩ := exists_symbols_of_split hlower h hs'
    have htable := forall_mem_charset hw
    rw [hcharacters] at htable
    have hswapped : ∀ c ∈ [y, x], c ∈ bech32Charset := by
      intro c hc
      refine htable c (List.mem_append_left _ (List.mem_append_right _ ?_))
      rw [List.mem_pair] at hc ⊢
      exact hc.symm
    have hrejected := rejected_of_window hmaps hlower h hs' hswapped rfl (by simp) fun heq ↦
      hne (List.cons.inj heq).1
    rwa [List.append_assoc] at hrejected

theorem Sample.lowersAscii_asciiMaps : Sample.asciiMaps.LowersAscii := by
  intro s t _
  simp only [Sample.toLower_asciiMaps, List.map_append]

/-- The string `nevel1zykjrj` is accepted, and `nevel1qykjrj` is not. -/
theorem burst_detected_sample :
    bech32Decode Sample.asciiMaps
        (Sample.nevel ++ separator :: [0x7a, 0x79, 0x6b, 0x6a, 0x72, 0x6a]) =
      .ok (Sample.nevel, []) ∧
    ∃ e, bech32Decode Sample.asciiMaps
      (Sample.nevel ++ separator :: [0x71, 0x79, 0x6b, 0x6a, 0x72, 0x6a]) = .error e := by
  obtain ⟨-, hsingle, -⟩ := burst_detected Sample.lowersAscii_asciiMaps Sample.toLower_nevel
    Sample.bech32Decode_nevel
  exact ⟨Sample.bech32Decode_nevel,
    hsingle [] [0x79, 0x6b, 0x6a, 0x72, 0x6a] 0x7a 0x71 rfl (by decide) (by decide)⟩

end NevelCore.Wallet
