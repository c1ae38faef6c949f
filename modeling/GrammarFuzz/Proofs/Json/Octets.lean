import GrammarFuzz.Proofs.Json.Reading

/-!
# Printed values in files

Outside of strings, printed values contain no slash, and inside of them, the quotes and
backslashes lead the scanner for comments to the end of the string.  It therefore leaves
the octets of a printed value as they are, and they are read as this value.
-/

namespace GrammarFuzz
namespace Json
namespace Comments

/-- Whether the scanner passes over octets and leaves them as they are. -/
def Passes (place place' : Place) (octets : List UInt8) : Prop :=
  ∀ rest, blankFrom place (octets ++ rest) = (blankFrom place' rest).map (octets ++ ·)

theorem passes_nil (place : Place) : Passes place place [] :=
  fun rest => (Option.map_id' (x := blankFrom place rest)).symm

theorem Passes.append {first second third : Place} {octets octets' : List UInt8}
    (h : Passes first second octets) (h' : Passes second third octets') :
    Passes first third (octets ++ octets') := by
  intro rest
  rw [List.append_assoc, h, h', Option.map_map]
  congr 1
  funext blanked
  exact (List.append_assoc _ _ _).symm

theorem passes_of_step {place place' : Place} {octet : UInt8}
    (h : step place octet = some (place', octet)) : Passes place place' [octet] := by
  intro rest
  rw [List.singleton_append, blankFrom, h]
  rfl

theorem passes_of_forall {place : Place} {octets : List UInt8}
    (h : ∀ octet ∈ octets, step place octet = some (place, octet)) :
    Passes place place octets := by
  induction octets with
  | nil => exact passes_nil place
  | cons octet octets ih =>
      rw [List.forall_mem_cons] at h
      exact (passes_of_step h.1).append (ih h.2)

/-!
## Characters
-/

def encode (w : Word) : List UInt8 :=
  w.flatMap String.utf8EncodeChar

theorem encode_append (u w : Word) : encode (u ++ w) = encode u ++ encode w :=
  List.flatMap_append

theorem eq_of_mem_utf8EncodeChar {c d : Char} (hd : d.toNat < 128)
    (h : UInt8.ofNat d.toNat ∈ String.utf8EncodeChar c) : c = d := by
  have htoNat : ∀ n, UInt8.ofNat d.toNat = UInt8.ofNat n → d.toNat = n % 256 := by
    intro n heq
    have hvalue := congrArg UInt8.toNat heq
    rw [UInt8.toNat_ofNat', UInt8.toNat_ofNat'] at hvalue
    omega
  rw [String.utf8EncodeChar] at h
  split at h
  · -- The only octet of an ASCII character is its code.
    rename_i hc
    have hsmall : c.toNat ≤ 127 := hc
    have hcode : d.toNat = c.toNat % 256 := htoNat _ (List.mem_singleton.mp h)
    have heq : c.toNat = d.toNat := by omega
    rw [← Char.ofNat_toNat c, heq, Char.ofNat_toNat]
  · -- All octets of other characters are too large.
    have hlarge : ∃ n, d.toNat = n % 256 ∧ 128 ≤ n ∧ n < 256 := by
      split at h
      · simp only [List.mem_cons, List.not_mem_nil, or_false] at h
        rcases h with h | h
        · exact ⟨_, htoNat _ h, by omega, by omega⟩
        · exact ⟨_, htoNat _ h, by omega, by omega⟩
      · split at h
        · simp only [List.mem_cons, List.not_mem_nil, or_false] at h
          rcases h with h | h | h
          · exact ⟨_, htoNat _ h, by omega, by omega⟩
          · exact ⟨_, htoNat _ h, by omega, by omega⟩
          · exact ⟨_, htoNat _ h, by omega, by omega⟩
        · simp only [List.mem_cons, List.not_mem_nil, or_false] at h
          rcases h with h | h | h | h
          · exact ⟨_, htoNat _ h, by omega, by omega⟩
          · exact ⟨_, htoNat _ h, by omega, by omega⟩
          · exact ⟨_, htoNat _ h, by omega, by omega⟩
          · exact ⟨_, htoNat _ h, by omega, by omega⟩
    rcases hlarge with ⟨n, hn, hlower, hupper⟩
    omega

theorem ne_of_mem_encode {w : Word} {d : Char} (hd : d.toNat < 128) (h : d ∉ w) {octet : UInt8}
    (hoctet : octet ∈ encode w) : octet ≠ UInt8.ofNat d.toNat := by
  rintro rfl
  rcases List.mem_flatMap.mp hoctet with ⟨c, hc, hmem⟩
  exact h (eq_of_mem_utf8EncodeChar hd hmem ▸ hc)

theorem passes_code {w : Word} (hquote : '"' ∉ w) (hslash : '/' ∉ w) :
    Passes .code .code (encode w) := by
  apply passes_of_forall
  intro octet hoctet
  have hquote' : octet ≠ 0x22 := ne_of_mem_encode (by decide) hquote hoctet
  have hslash' : octet ≠ 0x2f := ne_of_mem_encode (by decide) hslash hoctet
  rw [step, if_neg hquote', if_neg hslash']

theorem passes_string {w : Word} (hquote : '"' ∉ w) (hbackslash : '\\' ∉ w) :
    Passes .string .string (encode w) := by
  apply passes_of_forall
  intro octet hoctet
  have hquote' : octet ≠ 0x22 := ne_of_mem_encode (by decide) hquote hoctet
  have hbackslash' : octet ≠ 0x5c := ne_of_mem_encode (by decide) hbackslash hoctet
  rw [step, if_neg hquote', if_neg hbackslash']

theorem exists_octet_of_escaped? {c d : Char} (h : escaped? d = some c) :
    ∃ octet, String.utf8EncodeChar d = [octet] := by
  unfold escaped? at h
  split at h
  · exact ⟨_, rfl⟩
  · exact ⟨_, rfl⟩
  · exact ⟨_, rfl⟩
  · exact ⟨_, rfl⟩
  · exact ⟨_, rfl⟩
  · exact ⟨_, rfl⟩
  · exact ⟨_, rfl⟩
  · exact ⟨_, rfl⟩
  · cases h

theorem passes_escapeChar (c : Char) : Passes .string .string (encode (escapeChar c)) := by
  have hescape : Passes .string .escape (encode ['\\']) := passes_of_step rfl
  have hescapes := escapes_escapeChar c
  generalize escapeChar c = text at hescapes
  cases hescapes with
  | plain hquote hbackslash _ =>
      exact passes_string (by simpa using Ne.symm hquote) (by simpa using Ne.symm hbackslash)
  | @short d hescaped _ =>
      rcases exists_octet_of_escaped? hescaped with ⟨octet, hoctet⟩
      have hletter : Passes .escape .string (encode [d]) := by
        rw [encode, List.flatMap_singleton, hoctet]
        exact passes_of_step rfl
      exact hescape.append hletter
  | control hcode =>
      have hunicode : Passes .escape .string (encode ['u']) := passes_of_step rfl
      have hdigit : ∀ n < 16, hexDigit n ≠ '"' ∧ hexDigit n ≠ '\\' := by decide
      have hhigh := hdigit (c.toNat / 16) (by omega)
      have hlow := hdigit (c.toNat % 16) (by omega)
      refine hescape.append (hunicode.append (passes_string
        (w := ['0', '0', hexDigit (c.toNat / 16), hexDigit (c.toNat % 16)]) ?_ ?_))
      · simp [hhigh.1.symm, hlow.1.symm]
      · simp [hhigh.2.symm, hlow.2.symm]

theorem passes_quote (w : Word) : Passes .code .code (encode (quote w)) := by
  have hcontent : Passes .string .string (encode (w.flatMap escapeChar)) := by
    induction w with
    | nil => exact passes_nil .string
    | cons c w ih =>
        rw [List.flatMap_cons, encode_append]
        exact (passes_escapeChar c).append ih
  have hopen : Passes .code .string (encode ['"']) := passes_of_step rfl
  have hclose : Passes .string .code (encode ['"']) := passes_of_step rfl
  have hquote : encode (quote w) =
      encode ['"'] ++ (encode (w.flatMap escapeChar) ++ encode ['"']) := by
    rw [← encode_append, ← encode_append]
    rfl
  rw [hquote]
  exact hopen.append (hcontent.append hclose)

/-!
## Values
-/

/-- Whether the scanner for comments leaves a text outside of strings as it is. -/
def IsCode (text : Word) : Prop :=
  Passes .code .code (encode text)

theorem IsCode.append {u w : Word} (hu : IsCode u) (hw : IsCode w) : IsCode (u ++ w) := by
  rw [IsCode, encode_append]
  exact Passes.append hu hw

theorem isCode_newLine (layout : Layout) (level : Nat) : IsCode (layout.newLine level) := by
  have hblank := fun c => @isBlank_of_mem_newLine layout level c
  apply passes_code
  · intro hmem
    cases hblank _ hmem
  · intro hmem
    cases hblank _ hmem

theorem isCode_colon (layout : Layout) : IsCode layout.colon := by
  cases layout with
  | compact => exact passes_code (by decide) (by decide)
  | indented width => exact passes_code (by simp [Layout.colon]) (by simp [Layout.colon])

theorem isCode_renderInt (n : Int) : IsCode (renderInt n) := by
  have hne : ∀ d : Char, d ≠ '-' → d.isDigit = false → d ∉ renderInt n := by
    intro d hminus hdigit hmem
    have hdigits : d ∉ Word.ofNat n.natAbs := by
      intro hmem
      have htrue := Numeral.isDigit_of_mem_ofNat hmem
      rw [hdigit] at htrue
      cases htrue
    rw [renderInt] at hmem
    split at hmem
    · exact (List.mem_cons.mp hmem).elim hminus hdigits
    · exact hdigits hmem
  exact passes_code (hne '"' (by decide) (by decide)) (hne '/' (by decide) (by decide))

theorem isCode_renderItems {items : List Json}
    (h : ∀ item ∈ items, ∀ layout level, IsCode (render layout level item)) (layout : Layout)
    (level : Nat) : IsCode (renderItems layout level items) := by
  induction items with
  | nil => exact passes_nil .code
  | cons item items ih =>
      rw [List.forall_mem_cons] at h
      have hcomma : IsCode [','] := passes_code (by decide) (by decide)
      exact (((hcomma.append (isCode_newLine layout level)).append (h.1 layout level))).append
        (ih h.2)

theorem isCode_renderMembers {members : List (Word × Json)}
    (h : ∀ member ∈ members, ∀ layout level, IsCode (render layout level member.2))
    (layout : Layout) (level : Nat) : IsCode (renderMembers layout level members) := by
  induction members with
  | nil => exact passes_nil .code
  | cons member members ih =>
      rcases member with ⟨key, value⟩
      rw [List.forall_mem_cons] at h
      have hcomma : IsCode [','] := passes_code (by decide) (by decide)
      exact ((((hcomma.append (isCode_newLine layout level)).append (passes_quote key)).append
        (isCode_colon layout)).append (h.1 layout level)).append (ih h.2)

theorem isCode_render (value : Json) (hexact : value.isExact = true) (layout : Layout)
    (level : Nat) : IsCode (render layout level value) := by
  induction value using induct generalizing layout level with
  | null => exact passes_code (by simp [render]) (by simp [render])
  | bool b =>
      cases b with
      | true => exact passes_code (by simp [render]) (by simp [render])
      | false => exact passes_code (by simp [render]) (by simp [render])
  | int n => exact isCode_renderInt n
  | float x finite => cases hexact
  | string w => exact passes_quote w
  | array items ih =>
      have hopen : IsCode ['['] := passes_code (by decide) (by decide)
      have hclose : IsCode [']'] := passes_code (by decide) (by decide)
      have hitems := fun item hitem => ih item hitem (areExact_iff.mp hexact item hitem)
      cases items with
      | nil => exact hopen.append hclose
      | cons item items =>
          rw [List.forall_mem_cons] at hitems
          exact ((((hopen.append (isCode_newLine layout (level + 1))).append
            (hitems.1 layout (level + 1))).append (isCode_renderItems hitems.2 _ _)).append
              (isCode_newLine layout level)).append hclose
  | object members ih =>
      have hopen : IsCode ['\x7b'] := passes_code (by decide) (by decide)
      have hclose : IsCode ['\x7d'] := passes_code (by decide) (by decide)
      rw [isExact, Bool.and_eq_true] at hexact
      have hmembers := fun member hmember =>
        ih member hmember (membersExact_iff.mp hexact.2 member hmember)
      cases members with
      | nil => exact hopen.append hclose
      | cons member members =>
          rcases member with ⟨key, value⟩
          rw [List.forall_mem_cons] at hmembers
          exact ((((((hopen.append (isCode_newLine layout (level + 1))).append
            (passes_quote key)).append (isCode_colon layout)).append
              (hmembers.1 layout (level + 1))).append (isCode_renderMembers hmembers.2 _ _)).append
                (isCode_newLine layout level)).append hclose

theorem blank_encode {text : Word} (h : IsCode text) :
    blank (encode text) = some (encode text) := by
  have hblank := h []
  rw [List.append_nil] at hblank
  rw [blank, hblank]
  simp [blankFrom, mayEnd]

end Comments

theorem ofOctets?_pretty {value : Json} (hexact : value.isExact = true)
    (hdepth : value.nesting ≤ maxDepth) :
    ofOctets? (String.ofList value.pretty).toUTF8 = some value := by
  have hcode : Comments.IsCode value.pretty :=
    (Comments.isCode_render value hexact _ _).append
      (Comments.passes_code (w := ['\n']) (by decide) (by decide))
  have hbytes : (String.ofList value.pretty).toUTF8 =
      ⟨(Comments.encode value.pretty).toArray⟩ := by
    apply ByteArray.ext
    exact List.data_toByteArray
  have htext : String.fromUTF8? (String.ofList value.pretty).toUTF8 =
      some (String.ofList value.pretty) := by
    rw [String.fromUTF8?]
    exact dif_pos (String.ofList value.pretty).isValidUTF8
  rw [hbytes] at htext ⊢
  rw [ofOctets?, Comments.blank_encode hcode]
  simp [htext, ofText?_pretty hexact hdepth]

end Json
end GrammarFuzz
