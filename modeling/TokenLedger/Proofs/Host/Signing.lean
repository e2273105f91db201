import TokenLedger.Host.Command
import TokenLedger.Proofs.Amount
import TokenLedger.Proofs.Json.Number
import TokenLedger.Proofs.Signature

/-! What the command signs. A secret signs the transfers of its own key, in whatever case the digits of the key are
spelled and with any number of marks before them. What is printed authorises the transfer if there is one mark at
most, for the ledger does not pass over more. -/

namespace TokenLedger

namespace Hex

open Text

/-- The digits that are written. -/
def digits : List Char := ['0', '1', '2', '3', '4', '5', '6', '7', '8', '9', 'a', 'b', 'c', 'd', 'e', 'f']

theorem mem_digits_of_mem_text {s : Bytes} {c : Char} (h : c ∈ (text s).toList) : c ∈ digits := by
  have hdigit : ∀ n < 16, Char.ofNat (digit n).toNat ∈ digits := by decide
  rw [text, String.toList_ofList] at h
  induction s with
  | nil => cases h
  | cons b s ih =>
    have hb := b.toNat_lt
    rw [encode, List.map_cons, List.map_cons, List.mem_cons, List.mem_cons] at h
    rcases h with rfl | rfl | h
    · exact hdigit _ (by omega)
    · exact hdigit _ (by omega)
    · exact ih h

theorem toNat_lt_of_toLower {c : Char} (h : c.toLower ∈ digits) : c.toNat < 128 := by
  have hdigits : ∀ d ∈ digits, d.toNat < 128 := by simp [digits]
  by_contra hbig
  have hsame : c.toLower = c := dif_neg fun hupper => hbig (lt_of_le_of_lt hupper.2 (by decide))
  exact hbig (hdigits c (hsame ▸ h))

theorem mem_of_toLower {c : Char} (h : c.toLower ∈ digits) : c ∈ digits ++ ['A', 'B', 'C', 'D', 'E', 'F'] := by
  have hascii : ∀ n < 128, (Char.ofNat n).toLower ∈ digits →
      Char.ofNat n ∈ digits ++ ['A', 'B', 'C', 'D', 'E', 'F'] := by
    decide
  have hc := hascii c.toNat (toNat_lt_of_toLower h)
  rw [Char.ofNat_toNat] at hc
  exact hc h

theorem value_toLower {c : Char} (h : c.toLower ∈ digits) (i : Nat) :
    value (octet c.toLower) i = value (octet c) i := by
  have hc := mem_of_toLower h
  simp only [digits, List.cons_append, List.nil_append, List.mem_cons, List.not_mem_nil, or_false] at hc
  rcases hc with rfl | rfl | rfl | rfl | rfl | rfl | rfl | rfl | rfl | rfl | rfl | rfl | rfl | rfl | rfl | rfl |
    rfl | rfl | rfl | rfl | rfl | rfl <;> rfl

theorem decodeFrom_toLower : ∀ {cs : List Char}, (∀ c ∈ cs, c.toLower ∈ digits) → ∀ i : Nat,
    decodeFrom i ((cs.map Char.toLower).map octet) = decodeFrom i (cs.map octet)
  | [], _, _ => rfl
  | [_], _, _ => rfl
  | a :: b :: cs, h, i => by
    have hrest : decodeFrom (i + 2) ((cs.map Char.toLower).map octet) = decodeFrom (i + 2) (cs.map octet) :=
      decodeFrom_toLower (fun c hc => h c (by simp [hc])) (i + 2)
    simp only [List.map_cons, decodeFrom, value_toLower (h a (by simp)), value_toLower (h b (by simp)), hrest]

theorem map_octet_text (s : Bytes) : (text s).toList.map octet = encode s := by
  rw [text, String.toList_ofList, List.map_map]
  conv_rhs => rw [← List.map_id (encode s)]
  exact List.map_congr_left fun b _ => octet_ofNat b

@[simp] theorem length_text (s : Bytes) : (text s).toList.length = 2 * s.length := by
  rw [text, String.toList_ofList, List.length_map, length_encode]

section Spelled

variable {cs : List Char} {s : Bytes} (h : cs.map Char.toLower = (text s).toList)

include h

theorem toLower_mem_of_spelled : ∀ c ∈ cs, c.toLower ∈ digits := fun _ hc =>
  mem_digits_of_mem_text (h ▸ List.mem_map_of_mem hc)

theorem utf8_spelled : Text.utf8 (String.ofList cs) = cs.map octet :=
  utf8_ascii fun c hc => toNat_lt_of_toLower (toLower_mem_of_spelled h c hc)

theorem decode_spelled : decode (Text.utf8 (String.ofList cs)) = .ok s := by
  have hlength : (cs.map octet).length = 2 * s.length := by
    rw [← length_text, ← h, List.length_map, List.length_map]
  rw [utf8_spelled h, decode, if_neg (by omega), ← decodeFrom_toLower (toLower_mem_of_spelled h), h, map_octet_text,
    decodeFrom_encode]

end Spelled

theorem utf8_text (s : Bytes) : utf8 (text s) = encode s := by
  have h := utf8_spelled (map_toLower_text s)
  rwa [String.ofList_toList, map_octet_text] at h

theorem map_toLower_eq_of_sameLetters {cs : List Char} {s : Bytes} (h : sameLetters cs (text s).toList) :
    cs.map Char.toLower = (text s).toList := by
  rw [← map_toLower_text]
  exact beq_iff_eq.mp h

end Hex

namespace Text

theorem withoutMarks_eq_self {s : List Char} (h : ¬ ['0', 'x'] <+: s) : withoutMarks s = s := by
  rw [withoutMarks]
  rintro r rfl
  exact h ⟨r, rfl⟩

theorem withoutMark_eq_self {s : List Char} (h : ¬ ['0', 'x'] <+: s) : withoutMark s = s := by
  rw [withoutMark]
  rintro r rfl
  exact h ⟨r, rfl⟩

/-- Without a second mark it does not matter which ones are passed over. -/
theorem withoutMark_eq_withoutMarks {s : List Char} (h : ¬ ['0', 'x', '0', 'x'] <+: s) : withoutMark s = withoutMarks s := by
  by_cases hmark : ['0', 'x'] <+: s
  · obtain ⟨r, rfl⟩ := hmark
    have hr : ¬ ['0', 'x'] <+: r := fun ⟨q, hq⟩ => h ⟨q, by rw [← hq]; rfl⟩
    exact (withoutMarks_eq_self hr).symm
  · rw [withoutMark_eq_self hmark, withoutMarks_eq_self hmark]

theorem marks_append (s : List Char) : ∃ n, s = (List.replicate n ['0', 'x']).flatten ++ withoutMarks s := by
  induction s using withoutMarks.induct with
  | case1 s ih =>
    obtain ⟨n, hn⟩ := ih
    exact ⟨n + 1, congrArg (fun r => '0' :: 'x' :: r) hn⟩
  | case2 s h => exact ⟨0, by rw [withoutMarks]; exacts [rfl, h]⟩

end Text

section Marked

open Text

variable {cs : List Char} {b : Bytes} (h : sameLetters (withoutMarks cs) (Hex.text b).toList)

include h

theorem mem_marked {c : Char} (hc : c ∈ cs) : c ∈ Hex.digits ++ ['A', 'B', 'C', 'D', 'E', 'F', 'x'] := by
  obtain ⟨n, hn⟩ := marks_append cs
  rw [hn, List.mem_append, List.mem_flatten] at hc
  rcases hc with ⟨m, hm, hc⟩ | hc
  · rw [(List.mem_replicate.mp hm).2] at hc
    have hmark : ∀ d ∈ ['0', 'x'], d ∈ Hex.digits ++ ['A', 'B', 'C', 'D', 'E', 'F', 'x'] := by simp [Hex.digits]
    exact hmark c hc
  · have hdigit := Hex.mem_of_toLower (Hex.toLower_mem_of_spelled (Hex.map_toLower_eq_of_sameLetters h) c hc)
    simp only [List.mem_append, List.mem_cons] at hdigit ⊢
    tauto

theorem trim_marked : trim cs = cs := by
  have hblank : ∀ c ∈ Hex.digits ++ ['A', 'B', 'C', 'D', 'E', 'F', 'x'], isBlank c = false := by simp [Hex.digits, isBlank]
  exact strip_eq_self fun c hc => hblank c (mem_marked h hc)

theorem length_marked : cs.length % 2 = 0 := by
  obtain ⟨n, hn⟩ := marks_append cs
  have hdigits := congrArg List.length (Hex.map_toLower_eq_of_sameLetters h)
  rw [List.length_map, Hex.length_text] at hdigits
  have hlength := congrArg List.length hn
  simp only [List.length_append, List.length_flatten, List.map_replicate, List.sum_replicate, hdigits, smul_eq_mul,
    List.length_cons, List.length_nil] at hlength
  omega

end Marked

/-- What digits with marks before them spell. More than one mark is too many. -/
theorem Credential.decode_marked {s : String} {b : Bytes} (h : sameLetters (Text.withoutMarks s.toList) (Hex.text b).toList)
    (c : Credential) : c.decode s =
      if ['0', 'x', '0', 'x'] <+: s.toList then .error (.undecodableHex c (.badDigit 120 1)) else .ok b := by
  rw [decode, trim_marked h]
  by_cases htwice : ['0', 'x', '0', 'x'] <+: s.toList
  · rw [if_pos htwice]
    obtain ⟨r, hr⟩ := htwice
    have hlength := length_marked h
    have hascii : ∀ d ∈ '0' :: 'x' :: r, d.toNat < 128 := by
      have hmarked : ∀ d ∈ Hex.digits ++ ['A', 'B', 'C', 'D', 'E', 'F', 'x'], d.toNat < 128 := by simp [Hex.digits]
      exact fun d hd => hmarked d (mem_marked h (hr ▸ List.mem_append_right ['0', 'x'] hd))
    have hmark : Text.withoutMark s.toList = '0' :: 'x' :: r := by
      rw [← hr]
      rfl
    have hodd : ¬ (('0' :: 'x' :: r).map Text.octet).length % 2 = 1 := by
      rw [← hr] at hlength
      simp only [List.length_append, List.length_cons, List.length_nil] at hlength
      simp only [List.length_map, List.length_cons]
      omega
    rw [hmark, Text.utf8_ascii hascii, Hex.decode, if_neg hodd]
    rfl
  · rw [if_neg htwice, Text.withoutMark_eq_withoutMarks htwice, Hex.decode_spelled (Hex.map_toLower_eq_of_sameLetters h)]

theorem Hex.withoutMarks_text (b : Bytes) : Text.withoutMarks (text b).toList = (text b).toList := by
  refine Text.withoutMarks_eq_self fun ⟨r, hr⟩ => ?_
  have hmem := mem_digits_of_mem_text (s := b) (c := 'x') (hr ▸ by simp)
  exact absurd hmem (by decide)

theorem Hex.sameLetters_text (b : Bytes) : sameLetters (Text.withoutMarks (text b).toList) (text b).toList := by
  rw [withoutMarks_text]
  exact beq_self_eq_true _

theorem Hex.once_text (b : Bytes) : ¬ ['0', 'x', '0', 'x'] <+: (text b).toList := by
  intro ⟨r, hr⟩
  have hmem := mem_digits_of_mem_text (s := b) (c := 'x') (hr ▸ by simp)
  exact absurd hmem (by decide)

theorem Credential.decode_text (c : Credential) (b : Bytes) : c.decode (Hex.text b) = .ok b := by
  rw [c.decode_marked (Hex.sameLetters_text b), if_neg (Hex.once_text b)]

namespace Ed25519

theorem length_encode (a : Edwards25519.Point) : a.encode.length = 32 := Text.length_littleEndian _ _

theorem length_publicKey (secret : Bytes) : (publicKey secret).length = 32 := length_encode _

theorem length_sign (secret message : Bytes) : (sign secret message).length = 64 := by
  rw [sign]
  dsimp only
  rw [List.length_append, length_encode, Text.length_littleEndian]

theorem isKey_of_verify {key message signature : Bytes} (h : verify key message signature) : isKey key := by
  rw [isKey, Option.isSome_iff_ne_none]
  intro hnone
  -- the body comes in as that of a function, so that nothing calculates with points
  obtain ⟨f, hf⟩ : ∃ f, f = verify := ⟨_, rfl⟩
  rw [← hf] at h
  delta verify at hf
  rw [hf] at h
  beta_reduce at h
  rw [hnone] at h
  extract_lets R s k at h
  clear_value R s k
  generalize Edwards25519.Point.decode? R = r at h
  dsimp only at h
  cases h

end Ed25519

theorem ed25519Verifier_text {key : String} {k d s : Bytes} (hkey : Credential.publicKey.decode key = .ok k)
    (hk : k.length = 32) (hs : s.length = 64) (h : Ed25519.verify k d s) :
    ed25519Verifier key (Hex.text d) (Hex.text s) = .ok () := by
  have hsized : Credential.publicKey.decodeSized 32 key = .ok k := by
    rw [Credential.decodeSized, hkey]
    exact if_pos hk
  have hsigned : Credential.signature.decodeSized 64 (Hex.text s) = .ok s := by
    rw [Credential.decodeSized, Credential.decode_text]
    exact if_pos hs
  have hpoint : Ed25519.isKey k = true := Ed25519.isKey_of_verify h
  simp only [ed25519Verifier, hsized, Credential.decode_text, hsigned, hpoint, h, bind, Except.bind, if_true, pure]
  rfl

theorem ed25519Verifier_error {key : String} {f : Failure} (h : Credential.publicKey.decode key = .error f)
    (digest signature : String) : ed25519Verifier key digest signature = .error f := by
  rw [ed25519Verifier, Credential.decodeSized, h]
  rfl

/-- A digest as it is written is the one that is expected. -/
theorem authorise_text (verify : Verifier) (t : Transfer) (signature : String) :
    authorise verify t (Hex.text t.digest) signature = verify t.sender (Hex.text t.digest) signature := by
  have hsupplied : Text.withoutMark (Text.trim (Hex.text t.digest).toList) = (Hex.text t.digest).toList := by
    rw [trim_marked (Hex.sameLetters_text _), Text.withoutMark_eq_withoutMarks (Hex.once_text _),
      Hex.withoutMarks_text]
  have hsame : sameLetters (Hex.text t.digest).toList (Hex.text t.digest).toList = true := beq_self_eq_true _
  rw [authorise, hsupplied]
  change (if sameLetters (Hex.text t.digest).toList (Hex.text t.digest).toList then _ else _) = _
  rw [if_pos hsame]

/-- A transfer that is signed has the key as its sender, and what is printed is its digest and the signature. -/
theorem signTransfer_eq_ok {secret : Bytes} {document : String} {digest signature : Bytes}
    (h : Host.signTransfer secret document = .ok (digest, signature)) :
    ∃ t, Transfer.codec.decodeText document = .ok t ∧ digest = t.digest ∧ signature = Ed25519.sign secret t.digest ∧
      sameLetters (Text.withoutMarks t.sender.toList) (Hex.text (Ed25519.publicKey secret)).toList := by
  rw [Host.signTransfer] at h
  split at h
  · cases h
  · rename_i t ht
    dsimp only at h
    split at h
    · rename_i hsender
      cases h
      exact ⟨t, ht, rfl, rfl, hsender⟩
    · cases h

/-- What the signer prints for a transfer authorises it, as long as what is signed with a secret is verified under its
key, unless the sender is spelled with more than one mark: then the ledger takes the second one for digits. -/
theorem authorise_signTransfer {secret : Bytes} {document : String} {digest signature : Bytes}
    (h : Host.signTransfer secret document = .ok (digest, signature))
    (hverify : Ed25519.verify (Ed25519.publicKey secret) digest (Ed25519.sign secret digest)) :
    (∀ spelled, Host.secretOf spelled = .ok secret → Host.sign spelled document =
        .printed (Text.utf8 (Hex.text digest ++ "\n" ++ Hex.text signature ++ "\n"))) ∧
      ∃ t, Transfer.codec.decodeText document = .ok t ∧
        authorise ed25519Verifier t (Hex.text digest) (Hex.text signature) =
          if ['0', 'x', '0', 'x'] <+: t.sender.toList then .error (.undecodableHex .publicKey (.badDigit 120 1))
          else .ok () := by
  refine ⟨fun spelled hspelled => ?_, ?_⟩
  · rw [Host.sign, hspelled]
    dsimp only
    rw [h]
    rw [Text.utf8_append, Text.utf8_append, Text.utf8_append, Hex.utf8_text, Hex.utf8_text]
    have hnewline : Text.utf8 "\n" = [10] := rfl
    simp only [hnewline, List.append_assoc, List.cons_append, List.nil_append]
  · obtain ⟨t, ht, rfl, rfl, hsender⟩ := signTransfer_eq_ok h
    have hkey := Credential.publicKey.decode_marked hsender
    refine ⟨t, ht, ?_⟩
    rw [authorise_text]
    split at hkey
    · rename_i htwice
      rw [if_pos htwice, ed25519Verifier_error hkey]
    · rename_i honce
      rw [if_neg honce]
      exact ed25519Verifier_text hkey (Ed25519.length_publicKey secret) (Ed25519.length_sign secret _) hverify

/-- A secret, and a transfer with its key as the sender. -/
def signer : Bytes :=
  [42, 124, 210, 59, 126, 193, 172, 252, 19, 248, 188, 42, 86, 29, 0, 199, 137, 166, 117, 65, 6, 158, 85,
   111, 151, 224, 175, 128, 123, 148, 67, 107]

def signerKey : String := "17e58befabd0cf980415c34b6e9032711e597581abc187215384ccce03a7fb55"

def fromSigner (mark : String) : String :=
  "\x7b\"Token\":\"PRV\",\"From\":\"" ++ mark ++ signerKey ++
    "\",\"To\":\"bob\",\"Amount\":4,\"Id\":\"t1\",\"Date\":0\x7d"

/-- One mark is passed over by both sides, two marks by the signer only. -/
theorem authorise_signTransfer_fromSigner :
    (∃ digest signature t, Host.signTransfer signer (fromSigner "0x") = .ok (digest, signature) ∧
      Transfer.codec.decodeText (fromSigner "0x") = .ok t ∧
      authorise ed25519Verifier t (Hex.text digest) (Hex.text signature) = .ok ()) ∧
    ∃ digest signature t, Host.signTransfer signer (fromSigner "0x0x") = .ok (digest, signature) ∧
      Transfer.codec.decodeText (fromSigner "0x0x") = .ok t ∧
      authorise ed25519Verifier t (Hex.text digest) (Hex.text signature) =
        .error (.undecodableHex .publicKey (.badDigit 120 1)) := by
  have hsigned : ∀ mark ∈ ["0x", "0x0x"], (Host.signTransfer signer (fromSigner mark)).toOption.any fun p =>
      Ed25519.verify (Ed25519.publicKey signer) p.1 (Ed25519.sign signer p.1) := by
    decide +kernel
  have hsender : ∀ mark ∈ ["0x", "0x0x"], (Transfer.codec.decodeText (fromSigner mark)).toOption.map
      Transfer.sender = some (mark ++ signerKey) := by
    decide +kernel
  have hauthorised (mark : String) (hmark : mark ∈ ["0x", "0x0x"]) : ∃ digest signature t,
      Host.signTransfer signer (fromSigner mark) = .ok (digest, signature) ∧
      Transfer.codec.decodeText (fromSigner mark) = .ok t ∧
      authorise ed25519Verifier t (Hex.text digest) (Hex.text signature) =
        if ['0', 'x', '0', 'x'] <+: (mark ++ signerKey).toList then
          .error (.undecodableHex .publicKey (.badDigit 120 1))
        else .ok () := by
    have hsigned := hsigned mark hmark
    have hsender := hsender mark hmark
    cases hs : Host.signTransfer signer (fromSigner mark) with
    | error e =>
      rw [hs] at hsigned
      cases hsigned
    | ok p =>
      rw [hs, Except.toOption, Option.any_some] at hsigned
      obtain ⟨-, t, ht, hanswer⟩ := authorise_signTransfer hs hsigned
      rw [ht] at hsender
      rw [Option.some.inj hsender] at hanswer
      exact ⟨p.1, p.2, t, rfl, ht, hanswer⟩
  have honce : ¬ ['0', 'x', '0', 'x'] <+: ("0x" ++ signerKey).toList := by decide +kernel
  have htwice : ['0', 'x', '0', 'x'] <+: ("0x0x" ++ signerKey).toList := by decide +kernel
  constructor
  · simpa only [if_neg honce] using hauthorised "0x" (by decide)
  · simpa only [if_pos htwice] using hauthorised "0x0x" (by decide)

end TokenLedger
