import Redis.Keyspace
import Redis.Sds.Words

/-!
# Redis.Keyspace.Hashslot

The hash slot of a key.  `crc16` with its table is the division by x^16 + x^12 + x^5 + 1, bit by
bit and with the most significant bits first; and what is hashed of a key is its tag.
-/

namespace Redis.Keyspace

open List

variable {key tag : Key}

variable {front rest : Key}

end Redis.Keyspace
