import Mathlib.Data.Set.Card
import Mathlib.SetTheory.Cardinal.Finite
import NevelCore.Foundations.TextFields
import NevelCore.Storage.KeyText
import NevelCore.Wallet.Bech32

/-!
# Seed phrases

`NewSeedPhrase` takes a random byte for each word of a phrase, and `AuditSeedPhrase` checks a phrase
that is given back. The audit splits the phrase after it has put it in lower case, so what it
accepts are the phrases that can be generated, up to case and space (`auditSeedPhrase_iff`).

The audit counts eight bits for each word, as many as are read. There are only 124 words, so there
are fewer phrases than seven bits for each word would give (`seedPhrases_lt_entropy`).
-/

set_option autoImplicit false
set_option relaxedAutoImplicit false

namespace NevelCore.Wallet

open Foundations TextFields

/-- `seedWords`. -/
def seedWords : List (List UInt8) :=
  ["able", "about", "above", "absent", "absorb", "access", "acid", "across",
    "act", "adapt", "add", "adjust", "admit", "adult", "agent", "ahead",
    "alarm", "album", "alert", "alien", "align", "allow", "alone", "alpha",
    "always", "amber", "anchor", "angle", "apple", "april", "arena", "arrow",
    "asset", "atom", "audit", "avoid", "badge", "balance", "basic", "beach",
    "because", "before", "binary", "bonus", "brave", "bridge", "budget",
    "cable", "camera", "carbon", "chain", "circle", "client", "coin", "core",
    "credit", "crypto", "dash", "delta", "digital", "dollar", "double",
    "dream", "eagle", "earth", "elite", "energy", "engine", "equal", "ethic",
    "fabric", "faith", "fiber", "final", "future", "galaxy", "genesis",
    "global", "gold", "green", "guard", "hash", "honest", "index", "input",
    "jewel", "kernel", "layer", "ledger", "limit", "main", "market", "matrix",
    "memory", "merkle", "miner", "mobile", "money", "native", "network",
    "nevel", "node", "nonce", "output", "packet", "payment", "peer", "proof",
    "public", "quantum", "reward", "script", "secure", "seed", "signal",
    "silver", "supply", "target", "token", "trust", "valid", "wallet",
    "work", "zero"].map bytesOf

theorem length_seedWords : seedWords.length = 124 := rfl

/-- The word for a random byte. -/
def seedWord (v : UInt8) : List UInt8 :=
  seedWords.get ⟨v.toNat % seedWords.length, Nat.mod_lt _ (by rw [length_seedWords]; decide)⟩

/-- `NewSeedPhrase`, with the random bytes that are read. -/
def newSeedPhrase (words : ℤ) (read : (n : ℕ) → Except String (Vector UInt8 n)) :
    Except String (List UInt8) := do
  let b ← read (if words ≤ 0 then 24 else words.toNat)
  pure (join (b.toList.map seedWord))

inductive SeedError where
  | wordCount
  | wordlist

def SeedError.message : SeedError → String
  | .wordCount => "seed phrase must contain 12, 18, or 24 words"
  | .wordlist => "seed phrase contains a non NEVEL wordlist word"

structure SeedAuditReport where
  words : ℕ
  wordlist : String
  estimatedEntropy : ℕ
  standardWarnings : List String
  valid : Bool

/-- The words that `AuditSeedPhrase` sees. -/
def auditedWords (maps : CaseMaps) (seed : List UInt8) : List (List UInt8) :=
  fields (toLower maps (trimSpace seed))

/-- The warning for a phrase of 24 words, which is accepted. -/
def checksumWarning : String :=
  "NEVEL v1 seeds are audited for internal compatibility but are not BIP-39 mnemonic checksums"

/-- `AuditSeedPhrase`. -/
def auditSeedPhrase (maps : CaseMaps) (seed : List UInt8) :
    SeedAuditReport × Option SeedError :=
  let words := auditedWords maps seed
  let report : SeedAuditReport :=
    { words := words.length
      wordlist := "nevel-v1"
      estimatedEntropy := words.length * 8
      standardWarnings := []
      valid := false }
  if words.length ≠ 12 ∧ words.length ≠ 18 ∧ words.length ≠ 24 then
    ({ report with standardWarnings := [SeedError.wordCount.message] }, some .wordCount)
  else if ∃ word ∈ words, word ∉ seedWords then
    ({ report with standardWarnings := [SeedError.wordlist.message] }, some .wordlist)
  else
    ({ report with
        standardWarnings := if words.length = 24 then [checksumWarning] else []
        valid := true }, none)

/-! ### The list of words -/

theorem lower_seedWords : ∀ word ∈ seedWords, IsWord word ∧ ∀ b ∈ word, lowerByte b = b := by
  decide +kernel

theorem nodup_seedWords : seedWords.Nodup := by
  decide +kernel

theorem seedWord_mem (v : UInt8) : seedWord v ∈ seedWords := List.get_mem _ _

theorem exists_seedWord {word : List UInt8} (h : word ∈ seedWords) : ∃ v, seedWord v = word := by
  obtain ⟨i, rfl⟩ := List.mem_iff_get.mp h
  have hlt : (i : ℕ) < 124 := i.isLt
  refine ⟨UInt8.ofNat i, congrArg seedWords.get (Fin.ext ?_)⟩
  simp only [UInt8.toNat_ofNat', length_seedWords]
  omega

section Phrases

variable {words : List (List UInt8)} (hwords : ∀ word ∈ words, word ∈ seedWords)

include hwords

theorem isWord_of_seedWords : ∀ word ∈ words, IsWord word :=
  fun word hword ↦ (lower_seedWords word (hwords word hword)).1

theorem toLower_join (maps : CaseMaps) : toLower maps (join words) = join words := by
  have hbytes : ∀ b ∈ join words, b < 0x80 ∧ lowerByte b = b := by
    intro b hb
    rcases mem_join hb with rfl | ⟨word, hword, hb⟩
    · decide
    · obtain ⟨hvisible, hlower⟩ := lower_seedWords word (hwords word hword)
      exact ⟨(hvisible.visible b hb).2, hlower b hb⟩
  have hascii : isAscii (join words) = true :=
    List.all_eq_true.mpr fun b hb ↦ decide_eq_true (hbytes b hb).1
  rw [toLower, if_pos hascii]
  exact (List.map_congr_left fun b hb ↦ (hbytes b hb).2).trans (List.map_id _)

theorem auditedWords_join (maps : CaseMaps) : auditedWords maps (join words) = words := by
  have hvisible := isWord_of_seedWords hwords
  rw [auditedWords, trimSpace_join hvisible, toLower_join hwords, fields_join hvisible]

end Phrases

/-! ### What is generated and what is accepted -/

theorem newSeedPhrase_eq_ok {words : ℤ} {read : (n : ℕ) → Except String (Vector UInt8 n)}
    {phrase : List UInt8} (h : newSeedPhrase words read = .ok phrase) :
    ∃ b : List UInt8, b.length = (if words ≤ 0 then 24 else words.toNat) ∧
      join (b.map seedWord) = phrase := by
  unfold newSeedPhrase at h
  cases hread : read (if words ≤ 0 then 24 else words.toNat) with
  | error message =>
    rw [hread] at h
    cases h
  | ok b =>
    rw [hread] at h
    exact ⟨b.toList, b.length_toList, Except.ok.inj h⟩

theorem forall_mem_map_seedWord (b : List UInt8) : ∀ word ∈ b.map seedWord, word ∈ seedWords :=
  List.forall_mem_map.mpr fun v _ ↦ seedWord_mem v

/-- The phrases that can be generated are those of words of the list. -/
theorem exists_newSeedPhrase_iff {k : ℕ} (hk : 0 < k) {phrase : List UInt8} :
    (∃ read, newSeedPhrase k read = .ok phrase) ↔
      ∃ words : List (List UInt8), words.length = k ∧ (∀ word ∈ words, word ∈ seedWords) ∧
        join words = phrase := by
  have hcount : (if (k : ℤ) ≤ 0 then 24 else (k : ℤ).toNat) = k := by
    rw [if_neg (by omega), Int.toNat_natCast]
  constructor
  · rintro ⟨read, h⟩
    obtain ⟨b, hlength, hphrase⟩ := newSeedPhrase_eq_ok h
    exact ⟨b.map seedWord, by rw [List.length_map, hlength, hcount], forall_mem_map_seedWord b,
      hphrase⟩
  · rintro ⟨words, rfl, hwords, rfl⟩
    have hrange : words ∈ Set.range (List.map seedWord) := by
      rw [Set.range_list_map]
      exact fun word hword ↦ exists_seedWord (hwords word hword)
    obtain ⟨b, rfl⟩ := hrange
    rw [List.length_map] at hcount
    refine ⟨fun n ↦ .ok (.ofFn fun i ↦ b.getD i 0), ?_⟩
    have hbytes : (Vector.ofFn fun i : Fin b.length ↦ b.getD i 0).toList = b :=
      List.ext_getElem (by simp) (by simp)
    rw [newSeedPhrase, List.length_map, hcount]
    exact congrArg (fun b ↦ Except.ok (join (b.map seedWord))) hbytes

theorem pos_of_count {k : ℕ} (h : k ∈ [12, 18, 24]) : 0 < k := by
  simp only [List.mem_cons, List.not_mem_nil, or_false] at h
  omega

theorem auditSeedPhrase_eq_none_iff (maps : CaseMaps) (seed : List UInt8) :
    (auditSeedPhrase maps seed).2 = none ↔ (auditedWords maps seed).length ∈ [12, 18, 24] ∧
      ∀ word ∈ auditedWords maps seed, word ∈ seedWords := by
  have hmem (n : ℕ) : n ∈ [12, 18, 24] ↔ ¬ (n ≠ 12 ∧ n ≠ 18 ∧ n ≠ 24) := by
    simp only [List.mem_cons, List.not_mem_nil, or_false]
    tauto
  rw [hmem]
  unfold auditSeedPhrase
  by_cases hcount : (auditedWords maps seed).length ≠ 12 ∧ (auditedWords maps seed).length ≠ 18 ∧
      (auditedWords maps seed).length ≠ 24
  · rw [if_pos hcount]
    exact iff_of_false nofun fun h ↦ h.1 hcount
  · rw [if_neg hcount]
    by_cases hunknown : ∃ word ∈ auditedWords maps seed, word ∉ seedWords
    · rw [if_pos hunknown]
      obtain ⟨word, hword, hnot⟩ := hunknown
      exact iff_of_false nofun fun h ↦ hnot (h.2 word hword)
    · rw [if_neg hunknown]
      exact iff_of_true rfl ⟨hcount, by simpa using hunknown⟩

theorem auditSeedPhrase_counts (maps : CaseMaps) (seed : List UInt8) :
    (auditSeedPhrase maps seed).1.words = (auditedWords maps seed).length ∧
      (auditSeedPhrase maps seed).1.estimatedEntropy = (auditedWords maps seed).length * 8 := by
  unfold auditSeedPhrase
  dsimp only
  split_ifs <;> exact ⟨rfl, rfl⟩

/-- Words that make up a phrase of the list are those of the list. -/
theorem auditedWords_of_join_eq {maps : CaseMaps} {seed : List UInt8} {words : List (List UInt8)}
    (hwords : ∀ word ∈ words, word ∈ seedWords) (h : join words = join (auditedWords maps seed)) :
    auditedWords maps seed = words := by
  have hvisible := isWord_of_seedWords hwords
  have haudited : ∀ word ∈ auditedWords maps seed, IsWord word := by
    refine fun word hword ↦ ⟨ne_nil_of_mem_fields hword, fun b hb ↦ ?_⟩
    have hspace : b ≠ 0x20 := fun heq ↦ space_notMem_of_mem_fields hword (heq ▸ hb)
    have hmem : b ∈ join words := h ▸ mem_intercalate hword hb
    obtain ⟨other, hother, hb⟩ := (mem_join hmem).resolve_left hspace
    exact (hvisible other hother).visible b hb
  rw [← fields_join haudited, ← h, fields_join hvisible]

/-- `AuditSeedPhrase` accepts a phrase if its words, in lower case and with one space between them,
are a phrase that `NewSeedPhrase` can make. A phrase as it is made has this form. -/
theorem auditSeedPhrase_iff (maps : CaseMaps) (seed : List UInt8) :
    ((auditSeedPhrase maps seed).2 = none ↔ ∃ k ∈ [12, 18, 24], ∃ read,
      newSeedPhrase (k : ℕ) read = .ok (join (auditedWords maps seed))) ∧
    ∀ words read, newSeedPhrase words read = .ok seed → join (auditedWords maps seed) = seed := by
  refine ⟨?_, fun words read h ↦ ?_⟩
  · rw [auditSeedPhrase_eq_none_iff]
    constructor
    · rintro ⟨hcount, hwords⟩
      exact ⟨_, hcount,
        (exists_newSeedPhrase_iff (pos_of_count hcount)).mpr ⟨_, rfl, hwords, rfl⟩⟩
    · rintro ⟨k, hk, hread⟩
      obtain ⟨words, rfl, hwords, hjoin⟩ := (exists_newSeedPhrase_iff (pos_of_count hk)).mp hread
      rw [auditedWords_of_join_eq hwords hjoin]
      exact ⟨hk, hwords⟩
  · obtain ⟨b, -, rfl⟩ := newSeedPhrase_eq_ok h
    rw [auditedWords_join (forall_mem_map_seedWord b)]

/-! ### How many phrases there are -/

/-- The words with given places in the list. -/
def chosenWords {k : ℕ} (choice : Fin k → Fin seedWords.length) : List (List UInt8) :=
  .ofFn fun i ↦ seedWords.get (choice i)

theorem forall_mem_chosenWords {k : ℕ} (choice : Fin k → Fin seedWords.length) :
    ∀ word ∈ chosenWords choice, word ∈ seedWords := by
  intro word hword
  obtain ⟨i, rfl⟩ := List.mem_ofFn.mp hword
  exact List.get_mem _ _

theorem exists_chosenWords {words : List (List UInt8)} (hwords : ∀ word ∈ words, word ∈ seedWords) :
    ∃ choice : Fin words.length → Fin seedWords.length, chosenWords choice = words := by
  choose choice hchoice using fun i : Fin words.length ↦
    List.mem_iff_get.mp (hwords _ (List.get_mem words i))
  refine ⟨choice, ?_⟩
  rw [chosenWords, funext hchoice, List.ofFn_get]

theorem join_chosenWords_injective {k : ℕ} : Function.Injective
    fun choice : Fin k → Fin seedWords.length ↦ join (chosenWords choice) := by
  intro choice choice' h
  dsimp only at h
  have hwords : chosenWords choice = chosenWords choice' := by
    rw [← fields_join (isWord_of_seedWords (forall_mem_chosenWords choice)), h,
      fields_join (isWord_of_seedWords (forall_mem_chosenWords choice'))]
  funext i
  exact nodup_seedWords.injective_get (congrFun (List.ofFn_injective hwords) i)

theorem ncard_seedPhrases {k : ℕ} (hk : 0 < k) :
    {phrase | ∃ read, newSeedPhrase k read = .ok phrase}.ncard = 124 ^ k := by
  have hrange : {phrase | ∃ read, newSeedPhrase k read = .ok phrase} =
      Set.range fun choice : Fin k → Fin seedWords.length ↦ join (chosenWords choice) := by
    ext phrase
    rw [Set.mem_ofPred_eq, exists_newSeedPhrase_iff hk]
    constructor
    · rintro ⟨words, rfl, hwords, rfl⟩
      obtain ⟨choice, hchoice⟩ := exists_chosenWords hwords
      exact ⟨choice, congrArg join hchoice⟩
    · rintro ⟨choice, rfl⟩
      exact ⟨_, List.length_ofFn, forall_mem_chosenWords choice, rfl⟩
  rw [hrange, Set.ncard_range_of_injective join_chosenWords_injective, Nat.card_fun, Nat.card_fin,
    Nat.card_fin, length_seedWords]

/-- There are fewer phrases than the estimate of the entropy says, by more than a bit for each
word. -/
theorem seedPhrases_lt_entropy {maps : CaseMaps} {seed : List UInt8} {report : SeedAuditReport}
    (h : auditSeedPhrase maps seed = (report, none)) :
    {phrase | ∃ read, newSeedPhrase report.words read = .ok phrase}.ncard = 124 ^ report.words ∧
      124 ^ report.words < 2 ^ (report.estimatedEntropy - report.words) := by
  obtain ⟨hcount, -⟩ := (auditSeedPhrase_eq_none_iff maps seed).mp (congrArg Prod.snd h)
  obtain ⟨hwords, hentropy⟩ := auditSeedPhrase_counts maps seed
  rw [h] at hwords hentropy
  rw [hwords, hentropy]
  have hpos := pos_of_count hcount
  generalize (auditedWords maps seed).length = k at hpos
  have hbits : k * 8 - k = 7 * k := by omega
  refine ⟨ncard_seedPhrases hpos, ?_⟩
  rw [hbits, pow_mul]
  exact Nat.pow_lt_pow_left (by decide) hpos.ne'

/-- The phrase of twelve times the first word. -/
theorem seedPhrases_lt_entropy_able :
    ∃ report,
      auditSeedPhrase Sample.asciiMaps (join (.replicate 12 (seedWord 0))) = (report, none) ∧
      report.words = 12 ∧
      {phrase | ∃ read, newSeedPhrase report.words read = .ok phrase}.ncard = 124 ^ 12 := by
  have hwords : ∀ word ∈ List.replicate 12 (seedWord 0), word ∈ seedWords :=
    fun word hword ↦ List.eq_of_mem_replicate hword ▸ seedWord_mem 0
  have haudited := auditedWords_join hwords Sample.asciiMaps
  obtain ⟨⟨report, err⟩, hresult⟩ :
      ∃ result, auditSeedPhrase Sample.asciiMaps (join (.replicate 12 (seedWord 0))) = result :=
    ⟨_, rfl⟩
  have haccepted : err = none := by
    have hiff := auditSeedPhrase_eq_none_iff Sample.asciiMaps (join (.replicate 12 (seedWord 0)))
    rw [hresult, haudited] at hiff
    exact hiff.mpr ⟨by rw [List.length_replicate]; decide, hwords⟩
  have hcount : report.words = 12 := by
    have h := (auditSeedPhrase_counts Sample.asciiMaps (join (.replicate 12 (seedWord 0)))).1
    rwa [hresult, haudited, List.length_replicate] at h
  subst haccepted
  refine ⟨report, hresult, hcount, ?_⟩
  rw [(seedPhrases_lt_entropy hresult).1, hcount]

end NevelCore.Wallet
