import AdaptiveRate.Config.File
import AdaptiveRate.Proofs.Json.Record

namespace AdaptiveRate

open AdaptiveRate.Json

theorem LossThresholds.kept (t : LossThresholds) : Kept t where
  readable := by
    refine Fields.readable_record fun m hm ↦ ?_
    simp only [List.mem_cons, List.not_mem_nil, or_false] at hm
    obtain rfl | rfl | rfl := hm <;> exact (kept_uint8 _).readable
  decode_eq := by
    have hread : Fields.read ["reduce_below", "keep_below", "increase_below"] (encode t) = some _ :=
      Fields.read_record (by simp) (by simp)
    change (Fields.read ["reduce_below", "keep_below", "increase_below"] (encode t)).bind _ = _
    rw [hread, Option.bind_some]
    simp [Fields.getD_cons, (kept_uint8 _).decode_eq]

namespace Config

variable (c : Config)

theorem readable_encode : Readable (encode c) := by
  refine Fields.readable_record fun m hm ↦ ?_
  simp only [List.mem_cons, List.not_mem_nil, or_false] at hm
  obtain rfl | rfl | rfl | rfl | rfl | rfl := hm
  · exact readable_single _
  · exact (kept_uint64 _).readable
  · exact (kept_uint64 _).readable
  · exact c.thresholds.kept.readable
  · exact (kept_uint8 _).readable
  · exact (kept_uint64 _).readable

/-- A margin that is not finite has no numeral, so the configuration is not read at all. -/
theorem decode_encode : decode (encode c) = if c.defaultMargin.isFinite then some c else none := by
  have hread : Fields.read ["default_margin_db", "min_history", "history_capacity",
      "loss_thresholds", "max_nb_trans", "store_timeout_ms"] (encode c) = some _ :=
    Fields.read_record (by simp) (by simp)
  change (Fields.read ["default_margin_db", "min_history", "history_capacity", "loss_thresholds",
    "max_nb_trans", "store_timeout_ms"] (encode c)).bind _ = _
  rw [hread, Option.bind_some]
  cases hmargin : c.defaultMargin.isFinite with
  | false => simp [Fields.getD_cons, decode_single, hmargin]
  | true =>
    simp [Fields.getD_cons, decode_single, hmargin, (kept_uint64 _).decode_eq,
      c.thresholds.kept.decode_eq, (kept_uint8 _).decode_eq]

theorem validate_of_not_isFinite (h : c.defaultMargin.isFinite = false) :
    c.validate = .error (.margin c.defaultMargin) := by
  rw [validate, h]
  rfl

/-- A saved configuration is loaded as it was if it is valid. Otherwise its defect is reported,
or that the text is not one of a configuration. -/
theorem loadFile_save : loadFile (.ok c.save.toUTF8) =
    (c.validate.mapError fun d ↦ if c.defaultMargin.isFinite then .defect d else .json).map
      fun _ ↦ c := by
  have htext : String.fromUTF8? c.save.toUTF8 = some c.save := dif_pos c.save.isValidUTF8
  have hdecoded : (parse c.save).bind decode =
      if c.defaultMargin.isFinite then some c else none := by
    rw [save, parse_pretty c.readable_encode, Option.bind_some, decode_encode]
  simp only [loadFile, load, htext, hdecoded]
  cases hmargin : c.defaultMargin.isFinite with
  | false =>
    rw [c.validate_of_not_isFinite hmargin]
    rfl
  | true =>
    cases hvalidate : c.validate with
    | error d => simp only [if_true, hvalidate, Except.mapError, Except.map]
    | ok _ => simp only [if_true, hvalidate, Except.mapError, Except.map]

end Config

end AdaptiveRate
