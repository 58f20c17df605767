/-! # Escapes — the five entities of XML

    In attribute values and in text the same five characters are replaced by
    entities; every other character stands for itself. -/

namespace RiskExchange.Markup

/-- A character as it is written in a value or a text. -/
def escapeChar (c : Char) : List Char :=
  if c = '<' then ['&', 'l', 't', ';']
  else if c = '>' then ['&', 'g', 't', ';']
  else if c = '&' then ['&', 'a', 'm', 'p', ';']
  else if c = '\'' then ['&', 'a', 'p', 'o', 's', ';']
  else if c = '"' then ['&', 'q', 'u', 'o', 't', ';']
  else [c]

/-- A value or a text as it is written. -/
def escape (s : String) : List Char := s.toList.flatMap escapeChar

end RiskExchange.Markup
