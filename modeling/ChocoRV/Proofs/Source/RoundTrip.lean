import Mathlib
import ChocoRV.Source.Decode
import ChocoRV.Source.Encode
import ChocoRV.Proofs.Json.Text

/-!
# Programs from their own JSON form

Reading the JSON text of a program gives the program back, whatever its declarations, statements,
expressions and names (`Program.json_round_trip`). The only texts of programs that are refused are
those that nest too deep.

Every node is written with all its members, in the order in which its form declares them, so that
one lemma (`Json.node?_node`) says what the reader finds in it. What is left for each form is to
read its members, by induction on the fuel of the reader.
-/

namespace ChocoRV

/-! ## Nodes -/

variable {members : List (String × Json)}

namespace NodeFields

theorem pick_of_mem (h : (members.map Prod.fst).Nodup) {m : String × Json} (hm : m ∈ members) :
    pick members m.1 = some (some m.2) := by
  have hfilter : members.filter (·.1 == m.1) = [m] := by
    induction members with
    | nil => cases hm
    | cons w ws ih =>
      rw [List.map_cons, List.nodup_cons] at h
      rcases List.mem_cons.mp hm with rfl | hm
      · have hnone : ws.filter (·.1 == m.1) = [] := by
          rw [List.filter_eq_nil_iff]
          intro w hw heq
          exact h.1 (List.mem_map.mpr ⟨w, hw, beq_iff_eq.mp heq⟩)
        rw [List.filter_cons, if_pos (beq_self_eq_true _), hnone]
      · have hne : ¬ (w.1 == m.1) = true := fun heq =>
          h.1 (List.mem_map.mpr ⟨m, hm, (beq_iff_eq.mp heq).symm⟩)
        rw [List.filter_cons, if_neg hne, ih h.2 hm]
  rw [pick, Json.membersNamed, hfilter]
  rfl

/-- The members of a node as they are found when all of them are written. -/
def ofMembers (members : List (String × Json)) : NodeFields :=
    ⟨false, members.map fun m => some m.2⟩

theorem ofMembers?_of_subset {all : List (String × Json)} (h : (all.map Prod.fst).Nodup)
    (hsub : members ⊆ all) : ofMembers? all (members.map Prod.fst) = some (ofMembers members) := by
  have hpick : (members.map Prod.fst).mapM (pick all) = some (members.map fun m => some m.2) := by
    induction members with
    | nil => rfl
    | cons m ms ih =>
      rw [List.cons_subset] at hsub
      rw [List.map_cons, List.mapM_cons, pick_of_mem h hsub.1, ih hsub.2]
      rfl
  rw [ofMembers?, hpick]
  rfl

section Members

variable {α : Type} (name : String) (v : Json) (ms : List (String × Json)) (k : Nat)
  (read : Json → Option α)

theorem required_zero : (ofMembers ((name, v) :: ms)).required 0 read = read v := rfl

theorem required_succ :
    (ofMembers ((name, v) :: ms)).required (k + 1) read = (ofMembers ms).required k read := rfl

theorem withDefault_zero (a : α) : (ofMembers ((name, v) :: ms)).withDefault 0 a read = read v :=
    rfl

theorem withDefault_succ (a : α) : (ofMembers ((name, v) :: ms)).withDefault (k + 1) a read =
    (ofMembers ms).withDefault k a read := rfl

theorem optional_obj (members : List (String × Json)) :
    (ofMembers ((name, .obj members) :: ms)).optional 0 read = (read (.obj members)).map some := rfl

theorem optional_succ :
    (ofMembers ((name, v) :: ms)).optional (k + 1) read = (ofMembers ms).optional k read := rfl

end Members

end NodeFields

variable {kind : String}

namespace Json

/-- A node is read as the form that it names, with the members of that form. -/
theorem node?_obj {kinds : List String} {fields : Nat → List String} {k : Nat} (byNumber : Bool)
    (before : List (String × Json)) (hk : kinds.idxOf? kind = some k)
    (hnames : members.map Prod.fst = fields k)
    (hnodup : ((before ++ ("kind", .str kind) :: members).map Prod.fst).Nodup) :
    (Json.obj (before ++ ("kind", .str kind) :: members)).node? byNumber kinds fields =
      some (k, .ofMembers members) := by
  have htag := NodeFields.pick_of_mem hnodup (m := ("kind", .str kind)) (by simp)
  have hsub : members ⊆ before ++ ("kind", .str kind) :: members :=
    fun m hm => List.mem_append_right _ (List.mem_cons_of_mem _ hm)
  have hfields := NodeFields.ofMembers?_of_subset hnodup hsub
  rw [hnames] at hfields
  simp only [node?, htag, Option.bind_eq_bind, Option.bind_some, kind?, hk, hfields]
  rfl

theorem node?_node {kinds : List String} {fields : Nat → List String} {k : Nat} (byNumber : Bool)
    (hk : kinds.idxOf? kind = some k) (hnames : members.map Prod.fst = fields k)
    (hnodup : ("kind" :: fields k).Nodup) :
    (Json.node kind members).node? byNumber kinds fields = some (k, .ofMembers members) :=
  node?_obj byNumber [] hk hnames (by rwa [List.nil_append, List.map_cons, hnames])

theorem depth_node (kind : String) (members : List (String × Json)) :
    (Json.node kind members).depth = membersDepth members + 1 := by
  rw [Json.node, depth, membersDepth, depth] <;> simp

/-- A list is read back if all items that nest as deep as it allows are. -/
theorem list?_map {α : Type} {read : Json → Option α} {write : α → Json} {d : Nat}
    (h : ∀ a, (write a).depth ≤ d → read (write a) = some a) {as : List α}
    (hd : (Json.arr (as.map write)).depth ≤ d + 1) :
    list? read (.arr (as.map write)) = some as := by
  rw [depth] at hd
  rw [list?]
  induction as with
  | nil => rfl
  | cons a as ih =>
    rw [List.map_cons, itemsDepth] at hd
    rw [List.map_cons, List.mapM_cons, h a (by omega), ih (by omega)]
    rfl

theorem int32?_toInt (n : Int32) : (Json.int n.toInt).int32? = some n := by
  rw [int32?, if_pos ⟨Int32.minValue_le_toInt n, Int32.toInt_le n⟩, Int32.ofInt_toInt]

theorem uint32?_toNat (n : UInt32) : (Json.ofNat n.toNat).uint32? = some n := by
  show (if n.toNat < UInt32.size then some (UInt32.ofNat n.toNat) else none) = _
  rw [if_pos n.toNat_lt_size, UInt32.ofNat_toNat]

end Json

theorem Expr.listToJson_eq_map (es : List Expr) : listToJson es = es.map toJson := by
  induction es with
  | nil => rfl
  | cons e es ih => rw [listToJson, ih, List.map_cons]

theorem Stmt.listToJson_eq_map (ss : List Stmt) : listToJson ss = ss.map toJson := by
  induction ss with
  | nil => rfl
  | cons s ss ih => rw [listToJson, ih, List.map_cons]

theorem Decl.listToJson_eq_map (ds : List Decl) : listToJson ds = ds.map toJson := by
  induction ds with
  | nil => rfl
  | cons d ds ih => rw [listToJson, ih, List.map_cons]

/-! ## Reading the forms of a program -/

theorem Span.ofJson?_toJson (s : Span) : Span.ofJson? s.toJson = some s := by
  simp only [ofJson?, toJson, Json.uint32?_toNat, Option.bind_eq_bind, Option.bind_some]
  rfl

variable {fuel : Nat}

theorem ValueType.ofJson?_toJson (byNumber : Bool) {t : ValueType} (h : t.toJson.depth ≤ fuel) :
    ValueType.ofJson? byNumber fuel t.toJson = some t := by
  induction fuel generalizing byNumber t with
  | zero => cases t <;> exact absurd h (by rw [toJson, Json.depth_node]; omega)
  | succ fuel ih =>
    cases t with
    | named c =>
      have hnode : (ValueType.named c).toJson.node? byNumber kinds fields =
          some (0, .ofMembers _) :=
        Json.node?_node byNumber (by rfl) (by rfl) (by decide)
      rw [ofJson?, hnode]
      rfl
    | list t =>
      have hnode : t.list.toJson.node? byNumber kinds fields = some (1, .ofMembers _) :=
        Json.node?_node byNumber (by rfl) (by rfl) (by decide)
      rw [toJson, Json.depth_node, Json.membersDepth, Json.membersDepth] at h
      rw [ofJson?, hnode]
      show (ofJson? true fuel t.toJson).map ValueType.list = _
      rw [ih true (by omega)]
      rfl

theorem TypedVar.ofJson?_toJson {v : TypedVar} (h : v.toJson.depth ≤ decodeFuel) :
    TypedVar.ofJson? v.toJson = some v := by
  have hfields : v.toJson.record? ["name", "type"] = some (.ofMembers _) :=
    NodeFields.ofMembers?_of_subset (by simp) (List.Subset.refl _)
  simp only [toJson, Json.depth, Json.membersDepth] at h
  have htype : ValueType.ofJson? true decodeFuel v.type.toJson = some v.type :=
    ValueType.ofJson?_toJson true (by omega)
  simp only [ofJson?, hfields, Option.bind_eq_bind, Option.bind_some, NodeFields.required_zero,
    NodeFields.required_succ, Json.string?, htype]
  rfl

theorem Literal.ofJson?_toJson (l : Literal) : Literal.ofJson? l.toJson = some l := by
  cases l with
  | int n =>
    show (Json.int n.toInt).int32?.map Literal.int = _
    rw [Json.int32?_toInt]
    rfl
  | bool b => rfl
  | str s => rfl
  | none => rfl

namespace Expr

theorem operator?_binOp (op : BinOp) :
    Json.operator? BinOp.all BinOp.symbol (.str op.symbol) = some op := by
  cases op <;> rfl

theorem operator?_unOp (op : UnOp) :
    Json.operator? UnOp.all UnOp.symbol (.str op.symbol) = some op := by
  cases op <;> rfl

theorem depth_withInfo (i : ExprInfo) (kind : String) (members : List (String × Json)) :
    (withInfo i kind members).depth =
      max 1 (max i.type.toJson.depth (Json.membersDepth members)) + 1 := by
  simp [withInfo, Json.depth, Json.membersDepth, Span.toJson, Json.itemsDepth, Json.ofNat]

/-- What is left to be read of an expression is the members of its form. -/
theorem ofJson?_withInfo (byNumber : Bool) (hfuel : fuel < decodeFuel) {i : ExprInfo} {k : Nat}
    (hdepth : (withInfo i kind members).depth ≤ fuel + 1) (hk : kinds.idxOf? kind = some k)
    (hnames : members.map Prod.fst = fields k)
    (hnodup : ("span" :: "inferredType" :: "kind" :: fields k).Nodup) :
    ofJson? byNumber (fuel + 1) (withInfo i kind members) =
      ofFields? (ofJson? true fuel) i (.ofMembers members) k := by
  have hall : ((("span", i.span.toJson) :: ("inferredType", i.type.toJson) ::
      ("kind", Json.str kind) :: members).map Prod.fst).Nodup := by
    simpa only [List.map_cons, hnames] using hnodup
  have hnode : (withInfo i kind members).node? true kinds fields = some (k, .ofMembers members) :=
    Json.node?_obj true [("span", i.span.toJson), ("inferredType", i.type.toJson)] hk hnames hall
  have hsub : [("span", i.span.toJson), ("inferredType", i.type.toJson)] ⊆
      ("span", i.span.toJson) :: ("inferredType", i.type.toJson) :: ("kind", Json.str kind) ::
        members := by simp
  have hcommon := NodeFields.ofMembers?_of_subset hall hsub
  rw [depth_withInfo] at hdepth
  have htype : ValueType.ofJson? byNumber decodeFuel i.type.toJson = some i.type :=
    ValueType.ofJson?_toJson byNumber (by omega)
  rw [List.map_cons, List.map_cons, List.map_nil] at hcommon
  rw [withInfo] at hnode ⊢
  simp only [ofJson?, hcommon, hnode, Option.bind_eq_bind, Option.bind_some,
    NodeFields.withDefault_zero, NodeFields.required_zero, NodeFields.required_succ,
    Span.ofJson?_toJson, htype]

theorem ofJson?_toJson (byNumber : Bool) (hfuel : fuel ≤ decodeFuel) {e : Expr}
    (h : e.toJson.depth ≤ fuel) : ofJson? byNumber fuel e.toJson = some e := by
  induction fuel generalizing byNumber e with
  | zero => cases e <;> exact absurd h (by rw [toJson, depth_withInfo]; omega)
  | succ fuel ih =>
    have hsub : ∀ e : Expr, e.toJson.depth ≤ fuel → ofJson? true fuel e.toJson = some e :=
      fun e he => ih true (by omega) he
    have hlist : ∀ es : List Expr, (Json.arr (listToJson es)).depth ≤ fuel →
        Json.list? (ofJson? true fuel) (.arr (listToJson es)) = some es := by
      intro es hes
      rw [listToJson_eq_map] at hes ⊢
      exact Json.list?_map hsub (by omega)
    -- Each form: find its members, then read them; those that nest less are read by `hsub`.
    cases e
    all_goals
      refine (ofJson?_withInfo byNumber hfuel h (by rfl) (by rfl) (by decide)).trans ?_
      simp only [toJson, depth_withInfo, Json.membersDepth] at h
      simp (disch := omega) only [ofFields?, NodeFields.required_zero, NodeFields.required_succ,
        Json.int32?_toInt, Json.string?, operator?_binOp, operator?_unOp, hsub, hlist]
      rfl

theorem exists_toJson_eq_obj (e : Expr) : ∃ members, e.toJson = .obj members := by
  cases e <;> exact ⟨_, rfl⟩

/-- Expressions inside statements are read with fuel for every text. -/
theorem ofNested?_toJson {e : Expr} (h : e.toJson.depth ≤ decodeFuel) :
    ofNested? e.toJson = some e :=
  ofJson?_toJson true (Nat.le_refl _) h

end Expr

namespace Stmt

/-- What is left to be read of a statement is the members of its form. -/
theorem ofJson?_node (byNumber : Bool) (fuel : Nat) {s : Span} {k : Nat}
    (hk : kinds.idxOf? kind = some k) (hnames : "span" :: members.map Prod.fst = fields k)
    (hnodup : ("kind" :: fields k).Nodup) :
    ofJson? byNumber (fuel + 1) (.node kind (("span", s.toJson) :: members)) =
      ofFields? (ofJson? true fuel) s (.ofMembers (("span", s.toJson) :: members)) k := by
  have hnode : (Json.node kind (("span", s.toJson) :: members)).node? byNumber kinds fields =
      some (k, .ofMembers _) := Json.node?_node byNumber hk hnames hnodup
  simp only [ofJson?, hnode, Option.bind_eq_bind, Option.bind_some, NodeFields.withDefault_zero,
    Span.ofJson?_toJson]

theorem ofJson?_toJson (byNumber : Bool) (hfuel : fuel ≤ decodeFuel) {s : Stmt}
    (h : s.toJson.depth ≤ fuel) : ofJson? byNumber fuel s.toJson = some s := by
  induction fuel generalizing byNumber s with
  | zero => cases s <;> exact absurd h (by rw [toJson, Json.depth_node]; omega)
  | succ fuel ih =>
    have hexpr : ∀ e : Expr, e.toJson.depth ≤ fuel → Expr.ofNested? e.toJson = some e :=
      fun e he => Expr.ofNested?_toJson (by omega)
    have hexprs : ∀ es : List Expr, (Json.arr (Expr.listToJson es)).depth ≤ fuel →
        Json.list? Expr.ofNested? (.arr (Expr.listToJson es)) = some es := by
      intro es hes
      rw [Expr.listToJson_eq_map] at hes ⊢
      exact Json.list?_map hexpr (by omega)
    have hlist : ∀ ss : List Stmt, (Json.arr (listToJson ss)).depth ≤ fuel →
        Json.list? (ofJson? true fuel) (.arr (listToJson ss)) = some ss := by
      intro ss hss
      rw [listToJson_eq_map] at hss ⊢
      exact Json.list?_map (fun s hs => ih true (by omega) hs) (Nat.le_succ_of_le hss)
    cases s
    case ret s v =>
      refine (ofJson?_node byNumber fuel (k := 5) (by rfl) (by rfl) (by decide)).trans ?_
      cases v with
      | none => rfl
      | some v =>
        simp only [toJson, Json.depth_node, Json.membersDepth, Json.ofOption] at h
        have hv := hexpr v (by omega)
        obtain ⟨ms, hms⟩ := Expr.exists_toJson_eq_obj v
        rw [hms] at hv
        simp only [ofFields?, Json.ofOption, hms, NodeFields.optional_succ,
          NodeFields.optional_obj, hv]
        rfl
    all_goals
      refine (ofJson?_node byNumber fuel (by rfl) (by rfl) (by decide)).trans ?_
      simp only [toJson, Json.depth_node, Json.membersDepth] at h
      simp (disch := omega) only [ofFields?, NodeFields.required_zero, NodeFields.required_succ,
        NodeFields.withDefault_zero, NodeFields.withDefault_succ, Json.string?, hexpr,
          hexprs, hlist]
      rfl

end Stmt

namespace Decl

/-- What is left to be read of a declaration is the members of its form. -/
theorem ofJson?_node (byNumber : Bool) (fuel : Nat) {s : Span} {k : Nat}
    (hk : kinds.idxOf? kind = some k) (hnames : "span" :: members.map Prod.fst = fields k)
    (hnodup : ("kind" :: fields k).Nodup) :
    ofJson? byNumber (fuel + 1) (.node kind (("span", s.toJson) :: members)) =
      ofFields? (ofJson? true fuel) s (.ofMembers (("span", s.toJson) :: members)) k := by
  have hnode : (Json.node kind (("span", s.toJson) :: members)).node? byNumber kinds fields =
      some (k, .ofMembers _) := Json.node?_node byNumber hk hnames hnodup
  simp only [ofJson?, hnode, Option.bind_eq_bind, Option.bind_some, NodeFields.withDefault_zero,
    Span.ofJson?_toJson]

theorem ofJson?_toJson (byNumber : Bool) (hfuel : fuel ≤ decodeFuel) {d : Decl}
    (h : d.toJson.depth ≤ fuel) : ofJson? byNumber fuel d.toJson = some d := by
  induction fuel generalizing byNumber d with
  | zero => cases d <;> exact absurd h (by rw [toJson, Json.depth_node]; omega)
  | succ fuel ih =>
    have hlist : ∀ ds : List Decl, (Json.arr (listToJson ds)).depth ≤ fuel →
        Json.list? (ofJson? true fuel) (.arr (listToJson ds)) = some ds := by
      intro ds hds
      rw [listToJson_eq_map] at hds ⊢
      exact Json.list?_map (fun d hd => ih true (by omega) hd) (Nat.le_succ_of_le hds)
    have hstmts : ∀ ss : List Stmt, (Json.arr (Stmt.listToJson ss)).depth ≤ fuel →
        Json.list? (Stmt.ofJson? true decodeFuel) (.arr (Stmt.listToJson ss)) = some ss := by
      intro ss hss
      rw [Stmt.listToJson_eq_map] at hss ⊢
      exact Json.list?_map (d := fuel)
        (fun s hs => Stmt.ofJson?_toJson true (Nat.le_refl _) (by omega)) (Nat.le_succ_of_le hss)
    have hparams : ∀ ps : List TypedVar, (Json.arr (ps.map TypedVar.toJson)).depth ≤ fuel →
        Json.list? TypedVar.ofJson? (.arr (ps.map TypedVar.toJson)) = some ps := fun ps hps =>
      Json.list?_map (d := fuel) (fun p hp => TypedVar.ofJson?_toJson (by omega))
        (Nat.le_succ_of_le hps)
    cases d
    all_goals
      refine (ofJson?_node byNumber fuel (by rfl) (by rfl) (by decide)).trans ?_
      simp only [toJson, Json.depth_node, Json.membersDepth] at h
      simp (disch := omega) only [ofFields?, NodeFields.required_zero, NodeFields.required_succ,
        NodeFields.withDefault_zero, NodeFields.withDefault_succ, Json.string?,
        Literal.ofJson?_toJson, TypedVar.ofJson?_toJson, ValueType.ofJson?_toJson, hparams, hlist,
        hstmts]
      rfl

end Decl

/-! ## The numbers of a program -/

theorem plain_int32 (n : Int32) : (Json.int n.toInt).Plain := by
  have hlo := Int32.minValue_le_toInt n
  have hhi := Int32.toInt_le n
  show n.toInt.natAbs < JsonNumber.exactLimit
  have hmin : Int32.minValue.toInt = -2147483648 := by decide
  have hmax : Int32.maxValue.toInt = 2147483647 := by decide
  rw [JsonNumber.exactLimit]
  omega

theorem Span.plain_toJson (s : Span) : s.toJson.Plain := by
  have hnat : ∀ n : UInt32, (Json.ofNat n.toNat).Plain := by
    intro n
    have hn := n.toNat_lt
    show ((n.toNat : Int)).natAbs < JsonNumber.exactLimit
    rw [JsonNumber.exactLimit]
    omega
  exact ⟨hnat _, hnat _, hnat _, hnat _, trivial⟩

theorem ValueType.plain_toJson (t : ValueType) : t.toJson.Plain := by
  induction t with
  | named c => exact ⟨trivial, trivial, trivial⟩
  | list t ih => exact ⟨trivial, ih, trivial⟩

theorem Literal.plain_toJson (l : Literal) : l.toJson.Plain := by
  cases l with
  | int n => exact ⟨trivial, plain_int32 n, trivial⟩
  | bool b => exact ⟨trivial, trivial, trivial⟩
  | str s => exact ⟨trivial, trivial, trivial⟩
  | none => exact ⟨trivial, trivial⟩

theorem Expr.plain_withInfo (i : ExprInfo) (kind : String) (h : Json.PlainMembers members) :
    (withInfo i kind members).Plain :=
  ⟨i.span.plain_toJson, i.type.plain_toJson, trivial, h⟩

mutual

theorem Expr.plain_toJson : (e : Expr) → e.toJson.Plain
  | .int i v => plain_withInfo i _ ⟨plain_int32 v, trivial⟩
  | .bool i _ => plain_withInfo i _ ⟨trivial, trivial⟩
  | .str i _ => plain_withInfo i _ ⟨trivial, trivial⟩
  | .none i => plain_withInfo i _ trivial
  | .name i _ => plain_withInfo i _ ⟨trivial, trivial⟩
  | .binary i l _ r => plain_withInfo i _ ⟨l.plain_toJson, trivial, r.plain_toJson, trivial⟩
  | .unary i _ e => plain_withInfo i _ ⟨trivial, e.plain_toJson, trivial⟩
  | .cond i c t f =>
    plain_withInfo i _ ⟨c.plain_toJson, t.plain_toJson, f.plain_toJson, trivial⟩
  | .call i _ as => plain_withInfo i _ ⟨trivial, plain_listToJson as, trivial⟩
  | .methodCall i o _ as =>
    plain_withInfo i _ ⟨o.plain_toJson, trivial, plain_listToJson as, trivial⟩
  | .member i o _ => plain_withInfo i _ ⟨o.plain_toJson, trivial, trivial⟩
  | .index i l k => plain_withInfo i _ ⟨l.plain_toJson, k.plain_toJson, trivial⟩
  | .list i es => plain_withInfo i _ ⟨plain_listToJson es, trivial⟩

theorem Expr.plain_listToJson (es : List Expr) : Json.PlainItems (listToJson es) := by
  cases es with
  | nil => trivial
  | cons e es => exact ⟨Expr.plain_toJson e, Expr.plain_listToJson es⟩

end

mutual

theorem Stmt.plain_toJson : (s : Stmt) → s.toJson.Plain
  | .expr s e => ⟨trivial, s.plain_toJson, e.plain_toJson, trivial⟩
  | .assign s ts v =>
    ⟨trivial, s.plain_toJson, Expr.plain_listToJson ts, v.plain_toJson, trivial⟩
  | .ifElse s c t f =>
    ⟨trivial, s.plain_toJson, c.plain_toJson, plain_listToJson t, plain_listToJson f, trivial⟩
  | .whileLoop s c b => ⟨trivial, s.plain_toJson, c.plain_toJson, plain_listToJson b, trivial⟩
  | .forEach s _ e b =>
    ⟨trivial, s.plain_toJson, trivial, e.plain_toJson, plain_listToJson b, trivial⟩
  | .ret s none => ⟨trivial, s.plain_toJson, trivial, trivial⟩
  | .ret s (some v) => ⟨trivial, s.plain_toJson, v.plain_toJson, trivial⟩
  | .pass s => ⟨trivial, s.plain_toJson, trivial⟩

theorem Stmt.plain_listToJson (ss : List Stmt) : Json.PlainItems (listToJson ss) := by
  cases ss with
  | nil => trivial
  | cons s ss => exact ⟨Stmt.plain_toJson s, Stmt.plain_listToJson ss⟩

end

theorem TypedVar.plain_map_toJson (vs : List TypedVar) : Json.PlainItems (vs.map toJson) := by
  induction vs with
  | nil => trivial
  | cons v vs ih => exact ⟨⟨trivial, v.type.plain_toJson, trivial⟩, ih⟩

mutual

theorem Decl.plain_toJson : (d : Decl) → d.toJson.Plain
  | .var s v l =>
    ⟨trivial, s.plain_toJson, ⟨trivial, v.type.plain_toJson, trivial⟩, l.plain_toJson, trivial⟩
  | .func s _ ps r ds b =>
    ⟨trivial, s.plain_toJson, trivial, TypedVar.plain_map_toJson ps, r.plain_toJson,
      plain_listToJson ds, Stmt.plain_listToJson b, trivial⟩
  | .cls s _ _ ds => ⟨trivial, s.plain_toJson, trivial, trivial, plain_listToJson ds, trivial⟩
  | .global s _ => ⟨trivial, s.plain_toJson, trivial, trivial⟩
  | .nonlocal s _ => ⟨trivial, s.plain_toJson, trivial, trivial⟩

theorem Decl.plain_listToJson (ds : List Decl) : Json.PlainItems (listToJson ds) := by
  cases ds with
  | nil => trivial
  | cons d ds => exact ⟨Decl.plain_toJson d, Decl.plain_listToJson ds⟩

end

/-! ## Programs -/

namespace Program

theorem plain_toJson (p : Program) : p.toJson.Plain :=
  ⟨Decl.plain_listToJson p.decls, Stmt.plain_listToJson p.body, trivial⟩

theorem depth_toJson (p : Program) : p.toJson.depth =
    max (Json.arr (Decl.listToJson p.decls)).depth (Json.arr (Stmt.listToJson p.body)).depth +
      1 := by
  simp only [toJson, Json.depth, Json.membersDepth, Nat.max_zero]

theorem ofParts?_toJson {p : Program} (h : p.toJson.depth ≤ decodeFuel) :
    ofParts? (some (.arr (Decl.listToJson p.decls))) (some (.arr (Stmt.listToJson p.body))) =
      some p := by
  rw [depth_toJson, Decl.listToJson_eq_map, Stmt.listToJson_eq_map] at h
  have hdecls : Json.list? (Decl.ofJson? false decodeFuel) (.arr (p.decls.map Decl.toJson)) =
      some p.decls :=
    Json.list?_map (fun d hd => Decl.ofJson?_toJson false (Nat.le_refl _) hd)
      (show (Json.arr (p.decls.map Decl.toJson)).depth ≤ _ by omega)
  have hbody : Json.list? (Stmt.ofJson? false decodeFuel) (.arr (p.body.map Stmt.toJson)) =
      some p.body :=
    Json.list?_map (fun s hs => Stmt.ofJson?_toJson false (Nat.le_refl _) hs)
      (show (Json.arr (p.body.map Stmt.toJson)).depth ≤ _ by omega)
  simp only [ofParts?, Decl.listToJson_eq_map, Stmt.listToJson_eq_map, hdecls, hbody,
    Option.bind_eq_bind, Option.bind_some]
  rfl

/-- The two members of the program object are told apart by their names. -/
theorem ofRaw?_obj (decls body : RawJson) :
    ofRaw? (.obj [(Json.escape "declarations", decls), (Json.escape "statements", body)]) = (do
      let decls ← decls.value? (RawJson.maxDepth - 1)
      let body ← body.value? (RawJson.maxDepth - 1)
      ofParts? (some decls) (some body)) := by
  have hdecls : member? [(Json.escape "declarations", decls), (Json.escape "statements", body)]
      "declarations" = (decls.value? (RawJson.maxDepth - 1)).map some := by
    simp [member?, Json.unescape_escape]
  have hbody : member? [(Json.escape "declarations", decls), (Json.escape "statements", body)]
      "statements" = (body.value? (RawJson.maxDepth - 1)).map some := by
    simp [member?, Json.unescape_escape]
  rw [ofRaw?, if_pos (by simp [Json.unescape_escape]), hdecls, hbody]
  cases decls.value? (RawJson.maxDepth - 1) with
  | none => rfl
  | some d =>
    cases body.value? (RawJson.maxDepth - 1) with
    | none => rfl
    | some b => rfl

/-- A program is read back from the text of its JSON form, unless that nests too deep. -/
theorem json_round_trip (p : Program) : parse? p.toJson.render =
    if p.toJson.depth ≤ RawJson.maxDepth then some p else none := by
  have hmax : RawJson.maxDepth = 127 := rfl
  have hfuel : decodeFuel = 128 := rfl
  have hplain := p.plain_toJson
  have hraw : ofRaw? p.toJson.raw = _ := ofRaw?_obj _ _
  rw [parse?, Json.parse?_render hplain, Option.bind_some, hraw,
    Json.value?_raw hplain.1, Json.value?_raw hplain.2.1]
  by_cases hdepth : p.toJson.depth ≤ RawJson.maxDepth
  · have hparts := ofParts?_toJson (p := p) (by omega)
    rw [if_pos hdepth]
    rw [depth_toJson] at hdepth
    rw [if_pos (by omega), if_pos (by omega)]
    exact hparts
  · rw [if_neg hdepth]
    rw [depth_toJson] at hdepth
    by_cases hdecls : (Json.arr (Decl.listToJson p.decls)).depth ≤ RawJson.maxDepth - 1
    · rw [if_pos hdecls, if_neg (by omega)]
      rfl
    · rw [if_neg hdecls]
      rfl

end Program

end ChocoRV
