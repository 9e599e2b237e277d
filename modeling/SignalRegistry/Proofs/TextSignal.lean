/-
# Texts in signals

A text is written into its signal as far as its bytes have room before a final
zero byte, and read up to the first zero byte. If it has no NUL of its own, what
is read is what is left of it after the cut (`Block.read_of_text`). The cut counts
bytes: if it is between two characters the characters that fit are read back, but
if it is within one, U+FFFD stands for what is left of that
(`Block.text_recalled_iff`).

Key theorems: `Block.read_of_text`, `Block.text_recalled_iff`,
`Block.text_cut_within_character`.
-/
import SignalRegistry.Proofs.Utf8
import SignalRegistry.Proofs.WriteRead

namespace SignalRegistry
namespace Block

variable {m m' : Block} {address n : Nat} {s : String} {state : UInt8}

/-- What is read after a text is what is left of its bytes. -/
theorem read_of_text (hsize : m.size < sizeLimit) (hs : '\x00' ∉ s.toList)
    (h : m.writeSignal address n .str (.str s) state = .ok m') :
    m'.readSignal address n .str = ⟨state &&& ~~~booleanBit,
      .str (String.ofList (Utf8.decodeLossy ((Utf8.ofString s).take (n - 1))))⟩ := by
  obtain ⟨body, hbody, hread⟩ := read_of_write hsize h
  have havailable : (Value.str s).isAvailable = true := rfl
  have hroom : min (n - 1) body.length = n - 1 := by
    rw [ElementType.exactExtent] at hbody
    omega
  have hzero : ∀ b ∈ (Utf8.ofString s).take (n - 1), (b != 0) = true := fun b hb =>
    bne_iff_ne.2 fun h0 => Utf8.zero_notMem_encode hs (h0 ▸ List.mem_of_mem_take hb)
  have hend : ∀ k, (List.replicate k (0 : UInt8)).takeWhile (· != 0) = [] := fun k => by
    cases k <;> rfl
  rw [hread, state_of_written havailable]
  refine congrArg (Reading.mk _) ?_
  unfold written
  rw [if_pos havailable, Value.convert_str]
  unfold encodeBody decodeBody
  simp only
  rw [hroom, List.takeWhile_append_of_pos hzero, hend, List.append_nil]

/-- **A text is read back if it is cut between characters.** The longest beginning of
a text with whole characters that has room is read back if and only if the cut is
between two characters; if not, U+FFFD is read after it. No other byte is changed. -/
theorem text_recalled_iff (hsize : m.size < sizeLimit) (hs : '\x00' ∉ s.toList)
    (h : m.writeSignal address n .str (.str s) state = .ok m') :
    (m'.readSignal address n .str =
        ⟨state &&& ~~~booleanBit, .str (String.ofList (fitting (n - 1) s.toList))⟩ ↔
      Utf8.CutsCleanly (n - 1) s.toList) ∧
    (¬ Utf8.CutsCleanly (n - 1) s.toList → m'.readSignal address n .str =
        ⟨state &&& ~~~booleanBit,
          .str (String.ofList (fitting (n - 1) s.toList ++ [Utf8.replacement]))⟩) ∧
    ∀ i, i < address ∨ address + ElementType.str.exactExtent n ≤ i →
      m'.bytes[i]? = m.bytes[i]? := by
  have hread := read_of_text hsize hs h
  rw [Utf8.ofString, Utf8.decodeLossy_take_encode] at hread
  refine ⟨?_, fun hcut => ?_, fun i hi => getElem?_writeSignal hsize h hi⟩
  · rw [Utf8.cutsCleanly_iff, hread]
    constructor
    · intro heq
      by_contra hcut
      rw [if_neg hcut] at heq
      simp only [Reading.mk.injEq, Value.str.injEq, true_and] at heq
      have hlength := congrArg List.length (String.ofList_injective heq)
      rw [List.length_append, List.length_singleton] at hlength
      omega
    · intro hcut
      rw [if_pos hcut]
  · rw [hread, if_neg (mt (Utf8.cutsCleanly_iff _ _).2 hcut)]

/-- Three bytes have room for the first two characters and end there, four for a byte
of the third too. -/
theorem text_recalled_iff_euro : ∃ short long, (zeros default 16).size < sizeLimit ∧
    '\x00' ∉ "a\u00e9\u20ac".toList ∧
    (zeros default 16).writeSignal 0 4 .str (.str "a\u00e9\u20ac") 1 = .ok short ∧
    (zeros default 16).writeSignal 0 5 .str (.str "a\u00e9\u20ac") 1 = .ok long ∧
    short.readSignal 0 4 .str = ⟨1, .str "a\u00e9"⟩ ∧
    long.readSignal 0 5 .str = ⟨1, .str "a\u00e9\ufffd"⟩ ∧ long.bytes[7]? = some 0 := by
  have hsize : (zeros default 16).size < sizeLimit := by decide
  have hnul : '\x00' ∉ "a\u00e9\u20ac".toList := by decide
  have hclean : Utf8.CutsCleanly 3 "a\u00e9\u20ac".toList :=
    (Utf8.cutsCleanly_iff _ _).2 (by decide)
  have hcut : ¬ Utf8.CutsCleanly 4 "a\u00e9\u20ac".toList :=
    mt (Utf8.cutsCleanly_iff _ _).1 (by decide)
  have hroom : ∀ n, n ≤ 5 → 0 + ElementType.str.exactExtent n ≤ (zeros default 16).size := by decide
  obtain ⟨short, hshort⟩ :=
    exists_writeSignal hsize (hroom 4 (by decide)) (.str "a\u00e9\u20ac") 1
  obtain ⟨long, hlong⟩ := exists_writeSignal hsize (hroom 5 (by decide)) (.str "a\u00e9\u20ac") 1
  refine ⟨short, long, hsize, hnul, hshort, hlong, ?_, ?_, ?_⟩
  · exact (text_recalled_iff hsize hnul hshort).1.2 hclean
  · exact (text_recalled_iff hsize hnul hlong).2.1 hcut
  · rw [(text_recalled_iff hsize hnul hlong).2.2 7 (by decide)]
    decide

/-- A single byte has no room for a character of two, but what is read is not a
beginning of the text. -/
theorem text_cut_within_character : ∃ m',
    (zeros default 8).writeSignal 0 2 .str (.str "\u00e9") 1 = .ok m' ∧
    m'.readSignal 0 2 .str = ⟨1, .str "\ufffd"⟩ ∧
    fitting 1 "\u00e9".toList = [] ∧ ¬ "\ufffd".toList <+: "\u00e9".toList := by
  have hsize : (zeros default 8).size < sizeLimit := by decide
  have hroom : 0 + ElementType.str.exactExtent 2 ≤ (zeros default 8).size := by decide
  obtain ⟨m', hwrite⟩ := exists_writeSignal hsize hroom (.str "\u00e9") 1
  refine ⟨m', hwrite, ?_, by decide, by decide⟩
  rw [read_of_text hsize (by decide) hwrite, Utf8.ofString, Utf8.decodeLossy_take_encode,
    if_neg (by decide)]
  rfl

end Block
end SignalRegistry
