/-
# MxtChain.Trie.Decode — parsing node encodings

The parser of `trie/node.go`. It is run on bytes from disk and on bytes from the network, so its
error paths are modelled with the texts and the decode path they carry.
-/
import MxtChain.Trie.Commitment

namespace MxtChain.Trie

open Lib.Patricia List Function Rlp

/-! ## §1 — The parser -/

/-- A decoding error: what went wrong, and the path to the invalid child if it was wrapped. -/
structure DecodeErr where
  what : String
  stack : List String
  deriving DecidableEq, Repr

/-- The text of an error (`Error()`). -/
def DecodeErr.error (e : DecodeErr) : String :=
  if e.stack = [] then e.what
  else e.what ++ " (decode path: " ++ "<-".intercalate e.stack ++ ")"

def wrapError (e : DecodeErr) (ctx : String) : DecodeErr := ⟨e.what, e.stack ++ [ctx]⟩

/-- The texts of the errors of `rlp/raw.go`. -/
def rlpErrText : Rlp.RlpErr → String
  | .unexpectedEOF => "unexpected EOF"
  | .expectedString => "rlp: expected String or Byte"
  | .expectedList => "rlp: expected List"
  | .canonSize => "rlp: non-canonical size information"
  | .valueTooLarge => "rlp: value size exceeds available input length"

/-- `decodeRef`, over the parser `decode` for embedded nodes: a reference to a child, and the
bytes behind it. -/
def decodeRef (decode : Bytes → Except DecodeErr Node) (buf : Bytes) :
    Except DecodeErr (Node × Bytes) :=
  match Rlp.Split buf with
  | .error e => .error ⟨rlpErrText e, []⟩
  | .ok (kind, val, rest) =>
    if kind = .list then
      -- an embedded node; its encoding must be smaller than a hash in order to be valid
      let size := buf.length - rest.length
      if size > HashLength then
        .error ⟨"oversized embedded node (size is " ++ toString size ++ " bytes, want size < " ++
          toString HashLength ++ ")", []⟩
      else
        match decode buf with
        | .error e => .error e
        | .ok n => .ok (n, rest)
    else if kind = .string ∧ val.length = 0 then .ok (.nil, rest)
    else if kind = .string ∧ val.length = 32 then .ok (.hash (Hash.ofBytes val), rest)
    else
      .error ⟨"invalid RLP string size " ++ toString val.length ++ " (want 0 or 32)", []⟩

def decodeShort (decode : Bytes → Except DecodeErr Node) (hash : Option Hash) (elems : Bytes) :
    Except DecodeErr Node :=
  match Rlp.SplitString elems with
  | .error e => .error ⟨rlpErrText e, []⟩
  | .ok (kbuf, rest) =>
    let key := compactToHex kbuf
    if hasTerm key then
      match Rlp.SplitString rest with
      | .error e => .error ⟨"invalid value node: " ++ rlpErrText e, []⟩
      | .ok (val, _) => .ok (.short key (.value val) ⟨hash, false⟩)
    else
      match decodeRef decode rest with
      | .error e => .error (wrapError e "val")
      | .ok (r, _) => .ok (.short key r ⟨hash, false⟩)

/-- The loop of `decodeFull` over the sixteen child references. -/
def decodeChildren (decode : Bytes → Except DecodeErr Node) :
    List (Fin 17) → (Fin 17 → Node) → Bytes → Except DecodeErr ((Fin 17 → Node) × Bytes)
  | [], children, elems => .ok (children, elems)
  | i :: is, children, elems =>
    match decodeRef decode elems with
    | .error e => .error (wrapError e ("[" ++ toString i.val ++ "]"))
    | .ok (cld, rest) => decodeChildren decode is (update children i cld) rest

/-- The indices `0 … 15` of a full node's children. -/
def sixteen : List (Fin 17) := (finRange 16).map Fin.castSucc

def decodeFull (decode : Bytes → Except DecodeErr Node) (hash : Option Hash) (elems : Bytes) :
    Except DecodeErr Node :=
  match decodeChildren decode sixteen (fun _ => .nil) elems with
  | .error e => .error e
  | .ok (children, elems) =>
    match Rlp.SplitString elems with
    | .error e => .error ⟨rlpErrText e, []⟩
    | .ok (val, _) =>
      .ok (.full (if val.length > 0 then update children 16 (.value val) else children)
        ⟨hash, false⟩)

/-- `decodeNode`, with a bound on the nesting of embedded nodes. -/
def decodeNodeFuel : Nat → Option Hash → Bytes → Except DecodeErr Node
  | 0, _, _ => .error ⟨"unexpected EOF", []⟩
  | fuel + 1, hash, buf =>
    if buf.length = 0 then .error ⟨"unexpected EOF", []⟩
    else
      match Rlp.SplitList buf with
      | .error e => .error ⟨"decode error: " ++ rlpErrText e, []⟩
      | .ok (elems, _) =>
        -- the error of the count is dropped, the count is zero then
        match (Rlp.CountValues elems).toOption.getD 0 with
        | 2 => (decodeShort (decodeNodeFuel fuel none) hash elems).mapError (wrapError · "short")
        | 17 => (decodeFull (decodeNodeFuel fuel none) hash elems).mapError (wrapError · "full")
        | c => .error ⟨"invalid number of list elements: " ++ toString c, []⟩

/-- `decodeNode`: an embedded node starts behind at least one byte of its parent, so the length of
the buffer bounds the nesting. -/
def decodeNode (hash : Option Hash) (buf : Bytes) : Except DecodeErr Node :=
  decodeNodeFuel buf.length hash buf

def mustDecodeNode (hash : Hash) (buf : Bytes) : Except Err Node :=
  match decodeNode (some hash) buf with
  | .error e => .error (.crash ("node: " ++ e.error))
  | .ok n => .ok n

/-! ## §2 — Decoding what was encoded -/

section Decode

variable {H : Bytes → Hash}

/-- The node a parent holds in the place of the child `t` when it was just loaded. -/
def loadedRef (H : Bytes → Hash) (t : Content) : Node := expandNode none (toRef H (collapsed H t))

theorem kindOf_hash (h : Hash) : Rlp.kindOf (.str h.bytes) = .string := by
  have hl := h.length_bytes
  unfold Rlp.kindOf
  split
  · rename_i x hx
    rw [Rlp.Item.str.inj hx] at hl
    simp at hl
  · rfl
  · rename_i hx
    cases hx

theorem length_refItem_lt {t : Content} (hs : Storable t) :
    (Rlp.encode (refItem H t)).length < 2 ^ 64 := by
  have h := length_refItem_le (H := H) hs
  have hmax : maxSliceLength = 2 ^ 48 := rfl
  omega

variable {decode : Bytes → Except DecodeErr Node} {c t : Content} {cs : Fin 17 → Content}

/-- A reference is read back, if the parser for embedded nodes reads the child back. -/
theorem decodeRef_refItem (ht : t = .nil ∨ IsInner t) (hs : Storable t) (rest : Bytes) (hd : IsInner t → (enc H t).length < 32 →
      decode (enc H t ++ rest) = .ok (expandNode none (collapsed H t))) :
    decodeRef decode (Rlp.encode (refItem H t) ++ rest) = .ok (loadedRef H t, rest) := by
  have hsplit := Split_encode (refItem H t) (length_refItem_lt hs) rest
  rcases ht with rfl | hi
  · rfl
  rcases toRef_cases (H := H) t with ⟨_, hl, he⟩ | ⟨hsm, he⟩
  · rw [refItem_large hi hl] at hsplit ⊢
    rw [decodeRef, hsplit, loadedRef, he]
    simp [kindOf_hash, Rlp.contentOf, expandNode]
  have hlt := hsm hi
  obtain ⟨items, hitems⟩ := exists_item_list (H := H) hi
  have henc : Rlp.encode (refItem H t) = enc H t := by rw [refItem_small hi hlt]; rfl
  have hkind : Rlp.kindOf (refItem H t) = .list := by rw [refItem_small hi hlt, hitems]; rfl
  rw [decodeRef, hsplit, henc]
  have hsize : ¬ (enc H t ++ rest).length - rest.length > HashLength := by
    rw [length_append, HashLength]
    omega
  simp only [hkind, if_true, if_neg hsize, hd hi hlt, loadedRef, he]

theorem decodeChildren_refItems
    (hcs : ∀ i, i ≠ terminator → cs i = .nil ∨ IsInner (cs i)) (hs : ∀ i, Storable (cs i))
    (hd : ∀ i, IsInner (cs i) → (enc H (cs i)).length < 32 → ∀ rest,
      decode (enc H (cs i) ++ rest) = .ok (expandNode none (collapsed H (cs i))))
    (rest : Bytes) : ∀ (is : List (Fin 17)) (acc : Fin 17 → Node), terminator ∉ is →
      decodeChildren decode is acc (Rlp.encodeList (is.map fun i => refItem H (cs i)) ++ rest) =
        .ok (fun i => if i ∈ is then loadedRef H (cs i) else acc i, rest)
  | [], acc, _ => by simp [decodeChildren]
  | i :: is, acc, hn => by
    simp only [mem_cons, not_or] at hn
    have ih := decodeChildren_refItems hcs hs hd rest is
      (update acc i (loadedRef H (cs i))) hn.2
    rw [map_cons, encodeList_cons, append_assoc, decodeChildren,
      decodeRef_refItem (hcs i (Ne.symm hn.1)) (hs i) _ fun hi hl => hd i hi hl _]
    simp only [ih, Except.ok.injEq, Prod.mk.injEq, and_true]
    funext j
    by_cases hj : j ∈ is
    · simp [hj]
    by_cases hji : j = i
    · subst hji
      simp [hj]
    · simp [hj, hji]

theorem mem_sixteen {i : Fin 17} : i ∈ sixteen ↔ i ≠ terminator := by
  revert i
  decide

theorem ofFn_seventeen {α : Type} (f : Fin 17 → α) : ofFn f = sixteen.map f ++ [f terminator] := by
  rfl

theorem length_enc_pos (t : Content) : 1 ≤ (enc H t).length :=
  length_encode_pos _

/-- An embedded child has a shorter encoding than its parent. -/
theorem length_enc_lt_of_mem {items : List Rlp.Item} (hi : (collapsed H t).item = .list items)
    (hc : IsInner c) (hsmall : (enc H c).length < 32) (hmem : refItem H c ∈ items) :
    (enc H c).length < (enc H t).length := by
  have hle := length_encode_le_of_mem hmem
  rw [refItem_small hc hsmall] at hle
  have hpos := length_puthead_pos 0xC0 0xF7 (Rlp.encodeList items).length
  rw [enc, enc, RawNode.rlp, RawNode.rlp, hi, encode_list, length_append]
  omega

/-- The list that an inner node is encoded as is found again, with its number of elements. -/
theorem decodeNodeFuel_list {items : List Rlp.Item} (hm : Minimal terminator t) (hs : Storable t)
    (hi : (collapsed H t).item = .list items) (fuel : Nat) (h : Option Hash) (rest : Bytes) :
    decodeNodeFuel (fuel + 1) h (enc H t ++ rest) =
      match items.length with
      | 2 => (decodeShort (decodeNodeFuel fuel none) h (Rlp.encodeList items)).mapError
          (wrapError · "short")
      | 17 => (decodeFull (decodeNodeFuel fuel none) h (Rlp.encodeList items)).mapError
          (wrapError · "full")
      | c => .error ⟨"invalid number of list elements: " ++ toString c, []⟩ := by
  have hlen := length_enc_lt (H := H) hm hs
  rw [enc, RawNode.rlp, hi] at hlen
  have hcount := CountValues_encodeList items
    (lt_of_le_of_lt (length_encodeList_le items) hlen)
  have hne : ¬ (Rlp.encode (.list items) ++ rest).length = 0 := by
    have := length_encode_pos (.list items)
    rw [length_append]
    omega
  rw [enc, RawNode.rlp, hi, decodeNodeFuel, if_neg hne, SplitList_encode items hlen rest]
  simp only [hcount, Except.toOption, Option.getD_some]

theorem loadedRef_value (v : Bytes) : loadedRef H (.value v) = .value v := rfl

theorem expandNode_short {k : Hex} (hm : Minimal terminator (.short k c)) (h : Option Hash) :
    expandNode h (collapsed H (.short k c)) = .short k (loadedRef H c) ⟨h, false⟩ := by
  rw [collapsed, expandNode, compactToHex_hexToCompact (validHex_label hm)]
  rfl

theorem expandNode_full (cs : Fin 17 → Content) (h : Option Hash) :
    expandNode h (collapsed H (.full cs)) = .full (fun i => loadedRef H (cs i)) ⟨h, false⟩ := rfl

/-- What the parser for embedded nodes has to do on the child `c` of a node. -/
def ReadsBack (H : Bytes → Hash) (decode : Bytes → Except DecodeErr Node) (c : Content) : Prop :=
  IsInner c → (enc H c).length < 32 → ∀ rest,
    decode (enc H c ++ rest) = .ok (expandNode none (collapsed H c))

theorem decodeShort_enc {k : Hex} (hm : Minimal terminator (.short k c))
    (hs : Storable (.short k c)) (h : Option Hash) (hd : ReadsBack H decode c) :
    decodeShort decode h (Rlp.encodeList [.str (hexToCompact k), refItem H c]) =
      .ok (expandNode h (collapsed H (.short k c))) := by
  have hkey : (Rlp.encode (.str (hexToCompact k))).length < 2 ^ 64 := by
    have hk := hs.length_label hm
    have hc := length_hexToCompact_le k
    have he := length_encodeString_le (hexToCompact k)
    have hmax : maxSliceLength = 2 ^ 48 := rfl
    rw [encode_str]
    omega
  rw [expandNode_short hm, encodeList_cons, encodeList_cons, encodeList_nil,
    append_nil, decodeShort, SplitString_encode _ hkey]
  simp only [compactToHex_hexToCompact (validHex_label hm)]
  rcases hm with ⟨hw, v, rfl⟩ | ⟨_, hn, ⟨cs, rfl⟩, _⟩
  · have hv := SplitString_encode v
      (by simpa only [refItem_value] using length_refItem_lt (H := H) hs.child) []
    rw [append_nil] at hv
    rw [if_pos (hasTerm_of_word hw), refItem_value, hv]
    rfl
  · have hr : decodeRef decode (Rlp.encode (refItem H (.full cs)) ++ []) =
        .ok (loadedRef H (.full cs), []) :=
      decodeRef_refItem (t := .full cs) (.inr trivial) hs.child [] fun hi hl => hd hi hl []
    rw [append_nil] at hr
    rw [if_neg (by rw [hasTerm_of_notMem hn]; simp), hr]

variable (hm : Minimal terminator (.full cs))
include hm

/-- The seventeenth child is read as a string: an empty one stands for no value. -/
theorem refItem_last (hs : Storable (.full cs)) : ∃ v, refItem H (cs terminator) = .str v ∧
      loadedRef H (cs terminator) = if v.length > 0 then .value v else .nil := by
  rcases hm.2.1 with hn | ⟨v, hv⟩
  · exact ⟨[], by rw [hn, refItem_nil], by rw [hn]; rfl⟩
  · have hne : v ≠ [] := (hv ▸ hs.arm terminator : Storable (.value v)).value.1
    refine ⟨v, by rw [hv, refItem_value], ?_⟩
    rw [hv, loadedRef_value, if_pos (length_pos_iff.mpr hne)]

theorem decodeFull_enc (hs : Storable (.full cs))
    (h : Option Hash) (hd : ∀ i, ReadsBack H decode (cs i)) :
    decodeFull decode h (Rlp.encodeList (ofFn fun i => refItem H (cs i))) =
      .ok (expandNode h (collapsed H (.full cs))) := by
  have hch := decodeChildren_refItems (fun i hit => (hm.1 i hit).imp id isInner_of_minimal)
    (fun i => hs.arm i) hd (Rlp.encode (refItem H (cs terminator))) sixteen (fun _ => .nil)
    (fun hmem => (mem_sixteen.mp hmem) rfl)
  obtain ⟨v, hv, hlv⟩ := refItem_last (H := H) hm hs
  have hsplit := SplitString_encode v
    (by rw [← hv]; exact length_refItem_lt (H := H) (hs.arm terminator)) []
  rw [append_nil] at hsplit
  rw [expandNode_full, decodeFull, ofFn_seventeen, encodeList_append, encodeList_cons,
    encodeList_nil, append_nil, hch]
  simp only [hv, hsplit]
  congr 2
  funext i
  by_cases hit : i = terminator
  · subst hit
    rw [hlv]
    split
    · exact update_self _ _ _
    · simp [mem_sixteen]
  · have hu : ∀ g : Fin 17 → Node, update g 16 (.value v) i = g i := fun g =>
      update_of_ne hit _ _
    split
    · rw [hu, if_pos (mem_sixteen.mpr hit)]
    · exact if_pos (mem_sixteen.mpr hit)

/-- A filled arm with an encoding of its own is minimal. -/
theorem minimal_arm_of_isInner {i : Fin 17} (hi : IsInner (cs i)) : Minimal terminator (cs i) := by
  have hne : cs i ≠ .nil := by
    intro he
    rw [he] at hi
    exact hi
  refine (hm.arm hne).1 ?_
  intro hit
  obtain ⟨v, hv⟩ := (hm.arm hne).2 hit
  rw [hv] at hi
  exact hi

omit hm

/-- **The parser inverts the encoder.** The induction is on the tree; a child is parsed again
only if it is embedded, and then it is shorter than its parent. -/
theorem decodeNodeFuel_enc : ∀ {t : Content}, Minimal terminator t → Storable t →
    ∀ (fuel : Nat) (h : Option Hash) (rest : Bytes), (enc H t).length ≤ fuel →
      decodeNodeFuel fuel h (enc H t ++ rest) = .ok (expandNode h (collapsed H t)) := by
  intro t
  induction t with
  | nil | value v => intro hm; cases hm
  | short k c ih =>
    intro hm hs fuel h rest hfuel
    obtain ⟨fuel, rfl⟩ := Nat.exists_eq_add_of_le' (le_trans (length_enc_pos _) hfuel)
    have hi := item_short (H := H) k (ne_nil_of_minimal_short hm)
    have hd : ReadsBack H (decodeNodeFuel fuel none) c := by
      intro hci hsmall r
      have hlt := length_enc_lt_of_mem hi hci hsmall (by simp)
      rcases hm with ⟨_, v, rfl⟩ | ⟨_, _, _, hc⟩
      · cases hci
      · exact ih hc hs.child fuel none r (by omega)
    rw [decodeNodeFuel_list hm hs hi fuel h rest]
    rw [decodeShort_enc hm hs h hd]
    rfl
  | full cs ih =>
    intro hm hs fuel h rest hfuel
    obtain ⟨fuel, rfl⟩ := Nat.exists_eq_add_of_le' (le_trans (length_enc_pos _) hfuel)
    have hi := item_full (H := H) cs
    have hd : ∀ i, ReadsBack H (decodeNodeFuel fuel none) (cs i) := by
      intro i hci hsmall r
      have hlt := length_enc_lt_of_mem hi hci hsmall (mem_ofFn.mpr ⟨i, rfl⟩)
      exact ih i (minimal_arm_of_isInner hm hci) (hs.arm i) fuel none r (by omega)
    rw [decodeNodeFuel_list hm hs hi fuel h rest]
    rw [decodeFull_enc hm hs h hd]
    rfl

/-- Decoding the encoding of a tree under a hash. -/
theorem decodeNode_enc (hm : Minimal terminator t) (hs : Storable t) (h : Option Hash) :
    decodeNode h (enc H t) = .ok (expandNode h (collapsed H t)) := by
  have hd := decodeNodeFuel_enc (H := H) hm hs (enc H t).length h [] le_rfl
  rwa [append_nil] at hd

end Decode

end MxtChain.Trie
